import EveDB.Store.Options
import EveDB.Store.Visits

/-!
# History cursors

A cursor reads the history of an entity in bounded batches (`cursor.rs`). It keeps a snapshot, the
next version and the last one, and nothing that was decoded; every batch starts a new visit at the
next version (`HistoryCursor.readBatch`), which ends when the batch has as many events or bytes as
it may have. Completion and errors let go of the snapshot (`HistoryCursor.nextBatch`).

A view is never changed once it is published, and the files a snapshot pins are never written
again. What goes on in a database while a cursor is open therefore shows in its surroundings
only (`ReadEnv`): in the counters, the clock and the poison flag, and in what the operating system
and the allocator refuse.
-/

namespace EveDB.Store

open Fallible

/-- **The surroundings of a reader.** -/
structure ReadEnv extends Env where
  timeouts : Timeouts
  /-- What the operating system makes of a read. -/
  io : ℕ → Result Unit
  /-- There is no memory left. -/
  exhausted : ℕ → Bool

/-- Surroundings in which nothing goes wrong. -/
def ReadEnv.quiet (options : Options) : ReadEnv where
  toEnv := Env.quiet options.limits false
  timeouts := options.timeouts
  io _ := .ok ()
  exhausted _ := false

/-- A reader, who has looked at its surroundings so many times. -/
abbrev Looking (α : Type) := Fallible Error ℕ α

namespace ReadEnv

variable (env : ReadEnv)

/-- The next look at the surroundings. -/
def tick : Looking ℕ := fun i => (.ok i, i + 1)

/-- Fails once a deadline has passed (`deadline::check`). -/
def checkDeadline (last : ℕ) : Looking Unit := do
  let i ← tick
  Fallible.lift (if last ≤ env.now i then .error .deadlineExceeded else .ok ())

/-- Fails when a storage failure has closed the database. -/
def ready : Looking Unit := do
  let i ← tick
  Fallible.lift (if env.poisoned i then .error .needsRecovery else .ok ())

/-- Reserves read memory (`MemoryReservation::grow`, `MemoryKind::Read`). -/
def grow (bytes : ℕ) : Looking Unit := do
  let i ← tick
  Fallible.lift (check "decoded read bytes" (env.usage i).readMemoryBytes bytes
    env.limits.maxReadMemoryBytes)

/-- Allocates room for a result. -/
def reserve (failure : String) : Looking Unit := do
  let i ← tick
  Fallible.lift (if env.exhausted i then .error (.invalid failure) else .ok ())

/-- Answers what a read asks for; it is on nobody's account. -/
def answer (request : Request) : Looking Unit :=
  match request with
  | .scratch bytes => do Fallible.lift (env.scratch (← tick) bytes)
  | .memory bytes => do Fallible.lift (env.memory (← tick) bytes)
  | .decoded bytes => do Fallible.lift (env.decoded (← tick) bytes)
  | .charge _ => return ()

/-- Reads from files. -/
def read {α : Type} (reading : Reading α) : Looking α := do
  Fallible.lift (env.io (← tick))
  reading.run env.answer

end ReadEnv

/-! ### Snapshots -/

/-- **A pinned view**, until its lease runs out. -/
structure ReadSnapshot where
  state : ReadState
  deadline : Option ℕ

namespace ReadSnapshot

variable (snapshot : ReadSnapshot) (env : ReadEnv)

/-- The pinned view. -/
def pinned : Looking ReadState := do
  let start ← ReadEnv.tick
  if expired snapshot.deadline (env.now start) then Fallible.lift (.error .transactionExpired)
  else do
    let now ← ReadEnv.tick
    if expired snapshot.deadline (env.now now) then Fallible.lift (.error .deadlineExceeded)
    else return snapshot.state

/-- Works on the pinned view, until the operation has taken too long (`with_state`). -/
def withState {α : Type} (operation : ReadState → ℕ → Looking α) : Looking α := do
  let state ← snapshot.pinned env
  let last ← Fallible.lift (Store.deadline (env.now (← ReadEnv.tick)) env.timeouts.operation)
  let last := snapshot.deadline.elim last fun expiry => min last expiry
  env.checkDeadline last
  let result ← (operation state last).attempt
  env.checkDeadline last
  Fallible.lift result

/-- The range of reconstructible versions. -/
def retainedRange (table id : ℕ) : Looking (ℕ × ℕ) :=
  snapshot.withState env fun state _ => do
    env.ready
    match ← env.read (state.load table id) with
    | none => Fallible.lift (.error (.notFound ("entity " ++ toString id)))
    | some data => return (data.base.version, data.current.version)

end ReadSnapshot

/-! ### Cursors -/

/-- **What a caller asks of a cursor.** -/
structure HistoryOptions where
  firstVersion : Option ℕ
  lastVersion : Option ℕ
  maxEvents : ℕ
  maxBytes : ℕ
  /-- What a look at the cancellation token says. -/
  cancelled : ℕ → Bool

/-- What is asked of a cursor unless something else is. -/
def HistoryOptions.default : HistoryOptions where
  firstVersion := none
  lastVersion := none
  maxEvents := 256
  maxBytes := 1024 * 1024
  cancelled _ := false

/-- Fails once the caller has cancelled. -/
def HistoryOptions.check (options : HistoryOptions) : Looking Unit := do
  let i ← ReadEnv.tick
  Fallible.lift (if options.cancelled i then .error .cancelled else .ok ())

/-- **A batch of a history**: its events, each with the bytes it is accounted for. -/
structure HistoryBatch where
  events : List (Event × ℕ)
  bytes : ℕ

/-- **A history cursor**; the next version is not behind the last one. -/
structure HistoryCursor where
  deadline : Option ℕ
  snapshot : Option ReadSnapshot
  table : ℕ
  id : ℕ
  last : ℕ
  next : Option {version // version ≤ last}
  options : HistoryOptions

/-- What a visit has gathered. -/
structure Gathering (last : ℕ) where
  ticks : ℕ
  total : ℕ
  expected : Option {version // version ≤ last}
  events : List (Event × ℕ)

namespace Gathering

variable {last : ℕ}

/-- A look at the surroundings leaves what was gathered as it is. -/
def look {α : Type} (x : Looking α) : Fallible Error (Gathering last) α := fun g =>
  ((x.run g.ticks).1, { g with ticks := (x.run g.ticks).2 })

/-- The version behind one. -/
def following {version : ℕ} (h : version ≤ last) : Option {version // version ≤ last} :=
  if hlast : version = last then none else some ⟨version + 1, lt_of_le_of_ne h hlast⟩

/-- Expects the version behind an event, if the event is the expected one. -/
def expect (event : Event) (bytes : ℕ) : Fallible Error (Gathering last) Unit := fun g =>
  match g.expected with
  | none => (corrupt "gap in cursor history", g)
  | some expected =>
    if h : event.version = expected.1 then
      (.ok (), { g with
        expected := following (h ▸ expected.2)
        total := g.total + (bytes + eventSize) })
    else (corrupt "gap in cursor history", g)

/-- Adds an event to the batch, and tells whether there may be more. -/
def push (maxEvents : ℕ) (event : Event) (bytes : ℕ) : Fallible Error (Gathering last) Bool :=
  fun g =>
    (.ok (g.events.length + 1 < maxEvents), { g with events := g.events ++ [(event, bytes)] })

/-- Makes room for an event, unless the batch is full; an event that no batch has room for is an
error. -/
def roomFor (env : ReadEnv) (maxBytes size : ℕ) : Fallible Error (Gathering last) Bool := do
  let g ← get
  if ((checkedAdd size eventSize).bind (checkedAdd g.total)).all fun size => maxBytes < size then
    if g.total = 0 then
      Fallible.lift (.error (.limitExceeded "history batch bytes" maxBytes))
    else return false
  else do
    look (env.grow eventSize)
    return true

/-- **The visitor that gathers a batch.** -/
def visitor (env : ReadEnv) (options : HistoryOptions) (deadline : ℕ) :
    Visitor (Gathering last) where
  ready := look env.ready
  check := look do
    options.check
    env.checkDeadline deadline
  answer request := look (env.answer request)
  read reading := look (env.read reading)
  admits size := do
    look do
      options.check
      env.checkDeadline deadline
    roomFor env options.maxBytes size
  visit event bytes := do
    expect event bytes
    look (env.reserve "cannot allocate history batch")
    push options.maxEvents event bytes

end Gathering

namespace HistoryCursor

variable (env : ReadEnv)

/-- Visits events from a version on, and tells whether it got through. -/
def gather (cursor : HistoryCursor) (first : {version // version ≤ cursor.last})
    (state : ReadState) (deadline : ℕ) : Looking (Bool × Gathering cursor.last) := fun i =>
  let (result, g) := (state.visitEvents (Gathering.visitor env cursor.options deadline)
    cursor.table cursor.id first cursor.last).run
      { ticks := i, total := 0, expected := some first, events := [] }
  (result.map fun complete => (complete, g), g.ticks)

/-- Reads a batch, and finds the version behind it. -/
def readBatch (cursor : HistoryCursor) :
    Looking (Option (HistoryBatch × Option {version // version ≤ cursor.last})) :=
  match cursor.next with
  | none => return none
  | some first => do
    cursor.options.check
    match cursor.snapshot with
    | none => Fallible.lift (corrupt "cursor lost its snapshot")
    | some snapshot =>
      snapshot.withState env fun state last => do
        let last := cursor.deadline.elim last fun deadline => min deadline last
        env.checkDeadline last
        env.grow 0
        let (complete, g) ← cursor.gather env first state last
        cursor.options.check
        if complete ∧ g.expected.isSome then Fallible.lift (corrupt "truncated cursor history")
        else if g.events = [] then Fallible.lift (corrupt "empty unfinished history batch")
        else return some ({ events := g.events, bytes := g.total }, g.expected)

/-- The cursor without its snapshot. -/
def finished (cursor : HistoryCursor) : HistoryCursor :=
  { cursor with snapshot := none, next := none }

/-- **Reads the next batch.** The cursor is finished behind the last one, and by an error. -/
def nextBatch (cursor : HistoryCursor) (tick : ℕ) :
    Result (Option HistoryBatch) × HistoryCursor × ℕ :=
  match (cursor.readBatch env).run tick with
  | (.error e, tick) => (.error e, cursor.finished, tick)
  | (.ok none, tick) => (.ok none, cursor.finished, tick)
  | (.ok (some (batch, none)), tick) => (.ok (some batch), cursor.finished, tick)
  | (.ok (some (batch, some next)), tick) =>
    (.ok (some batch), { cursor with next := some next }, tick)

end HistoryCursor

/-- A requested version has to be available. -/
def checkRequested (available : Option ℕ) (base current requested : ℕ) : Result Unit :=
  if (available.all fun first => requested < first) ∨ current < requested then
    .error (.versionUnavailable requested (saturatingAdd base 1) current)
  else .ok ()

/-- **Opens a cursor on a snapshot.** -/
def ReadSnapshot.history (snapshot : ReadSnapshot) (env : ReadEnv) (table id : ℕ)
    (options : HistoryOptions) : Looking HistoryCursor := do
  options.check
  if options.maxEvents = 0 ∨ options.maxBytes = 0 then
    Fallible.lift (.error (.invalid "history batch limits must be positive"))
  else do
    let (base, current) ← snapshot.retainedRange env table id
    let _ ← snapshot.pinned env
    let options :=
      { options with
        maxEvents := min options.maxEvents env.limits.maxHistoryBatchEvents
        maxBytes := min options.maxBytes env.limits.maxHistoryBatchBytes }
    let available := (checkedAdd base 1).filter fun first => first ≤ current
    Fallible.lift ((options.firstVersion.toList ++ options.lastVersion.toList).forM
      (checkRequested available base current))
    let last := options.lastVersion.getD current
    match options.firstVersion.or available with
    | none =>
      return { deadline := none, snapshot := none, table, id, last, next := none, options }
    | some first =>
      if h : first ≤ last then
        return { deadline := none, snapshot := some snapshot, table, id, last,
                 next := some ⟨first, h⟩, options }
      else Fallible.lift (.error (.invalid "history range is reversed"))

/-! ### What an operation on a snapshot returns -/

section Snapshots

variable {env : ReadEnv} {snapshot : ReadSnapshot} {i j : ℕ}

theorem ReadSnapshot.pinned_ok {state : ReadState}
    (h : (snapshot.pinned env).run i = (.ok state, j)) : state = snapshot.state := by
  obtain ⟨start, k, -, h⟩ := run_bind_eq_ok.mp h
  split at h
  · cases h
  · obtain ⟨now, l, -, h⟩ := run_bind_eq_ok.mp h
    split at h
    · cases h
    · cases h
      rfl

/-- What works on the pinned view returns what its operation does. -/
theorem ReadSnapshot.withState_ok {α : Type} {operation : ReadState → ℕ → Looking α} {a : α}
    (h : (snapshot.withState env operation).run i = (.ok a, j)) :
    ∃ last k l, (operation snapshot.state last).run k = (.ok a, l) := by
  obtain ⟨state, k, hpinned, h⟩ := run_bind_eq_ok.mp h
  obtain rfl := ReadSnapshot.pinned_ok hpinned
  obtain ⟨tick, k, -, h⟩ := run_bind_eq_ok.mp h
  obtain ⟨last, k, -, h⟩ := run_bind_eq_ok.mp h
  obtain ⟨_, k, -, h⟩ := run_bind_eq_ok.mp h
  obtain ⟨result, k', hattempt, h⟩ := run_bind_eq_ok.mp h
  obtain ⟨_, l, -, h⟩ := run_bind_eq_ok.mp h
  obtain ⟨hresult, -⟩ := Prod.ext_iff.mp hattempt
  have hok : result = .ok a := (Prod.ext_iff.mp h).1
  exact ⟨_, k, _, Prod.ext ((Except.ok.inj hresult).trans hok) rfl⟩

/-- Files are read as the reading says. -/
theorem ReadEnv.read_ok {α : Type} {reading : Reading α} {a : α}
    (h : (env.read reading).run i = (.ok a, j)) : reading.result = .ok a := by
  obtain ⟨tick, k, -, h⟩ := run_bind_eq_ok.mp h
  obtain ⟨_, k, -, h⟩ := run_bind_eq_ok.mp h
  exact Guarded.result_of_run h

/-- The range a snapshot returns is that of the entity it loads. -/
theorem ReadSnapshot.retainedRange_ok {table id base current : ℕ}
    (h : (snapshot.retainedRange env table id).run i = (.ok (base, current), j)) :
    ∃ data, (snapshot.state.load table id).result = .ok (some data) ∧
      data.base.version = base ∧ data.current.version = current := by
  obtain ⟨last, k, l, h⟩ := ReadSnapshot.withState_ok h
  obtain ⟨_, k, -, h⟩ := run_bind_eq_ok.mp h
  obtain ⟨found, k, hread, h⟩ := run_bind_eq_ok.mp h
  cases found with
  | none => cases h
  | some data =>
    cases h
    exact ⟨data, ReadEnv.read_ok hread, rfl, rfl⟩

end Snapshots

/-! ### What a batch is -/

/-- **What a visit has gathered**: events of the view, one for each version from the first one on
up to the one that is expected, within the bytes it may have. -/
structure Gathered {last : ℕ} (p : Event → Prop) (first maxBytes : ℕ) (g : Gathering last) :
    Prop where
  versions : g.events.map (fun e => e.1.version) = List.range' first g.events.length
  events : ∀ e ∈ g.events, p e.1
  expected : g.expected.elim (last + 1) Subtype.val = first + g.events.length
  total : g.total = (g.events.map fun e => e.2 + eventSize).sum
  bytes : g.total ≤ maxBytes

section Gathering

variable {env : ReadEnv} {p : Event → Prop} {last first maxBytes : ℕ}

/-- A look at the surroundings leads nowhere else. -/
theorem Gathering.look_leads {α : Type} {q : Gathering last → Prop}
    (hq : ∀ g ticks, q g → q { g with ticks }) (x : Looking α) :
    Leads q (Gathering.look x) (fun _ => q) fun _ => True := by
  refine fun g hg => ⟨fun a g' hrun => ?_, fun _ _ _ => trivial⟩
  obtain ⟨-, rfl⟩ := Prod.ext_iff.mp hrun
  exact hq g _ hg

theorem Gathered.look {g : Gathering last} (h : Gathered p first maxBytes g) (ticks : ℕ) :
    Gathered p first maxBytes { g with ticks } :=
      ⟨h.versions, h.events, h.expected, h.total, h.bytes⟩

theorem Gathering.following_elim {version : ℕ} (h : version ≤ last) :
    (Gathering.following h).elim (last + 1) Subtype.val = version + 1 := by
  unfold Gathering.following
  split
  · next heq =>
    rw [heq]
    rfl
  · rfl

/-- The expected event leads on to the one behind it. -/
theorem Gathering.visit_leads {maxEvents size : ℕ} {event : Event}
    (hevent : p event) (message : String) :
    Leads (fun g : Gathering last => (Gathered p first maxBytes g ∧
        g.events.length < max 1 maxEvents) ∧ g.total + (size + eventSize) ≤ maxBytes)
      (do
        Gathering.expect event size
        Gathering.look (env.reserve message)
        Gathering.push maxEvents event size)
      (midway (fun g => Gathered p first maxBytes g ∧ g.events.length < max 1 maxEvents)
        fun g => Gathered p first maxBytes g ∧ g.events.length ≤ max 1 maxEvents)
      fun _ => True := by
  -- between the two the event is counted, but not yet there
  let counted (g : Gathering last) : Prop :=
    Gathered p first maxBytes { g with events := g.events ++ [(event, size)] } ∧
      g.events.length < max 1 maxEvents
  have hexpect : Leads (fun g : Gathering last => (Gathered p first maxBytes g ∧
        g.events.length < max 1 maxEvents) ∧ g.total + (size + eventSize) ≤ maxBytes)
      (Gathering.expect event size) (fun _ => counted) fun _ => True := by
    rintro g ⟨⟨hg, hlength⟩, hroom⟩
    refine ⟨fun a g' hrun => ?_, fun _ _ _ => trivial⟩
    unfold run Gathering.expect at hrun
    split at hrun
    · cases hrun
    · next expected hexpected =>
      split at hrun
      · next hversion =>
        cases hrun
        have hnext := hg.expected
        rw [hexpected, Option.elim_some, ← hversion] at hnext
        refine ⟨⟨?_, ?_, ?_, ?_, hroom⟩, hlength⟩
        · rw [List.map_append, hg.versions, List.length_append, List.length_singleton,
            List.range'_1_concat, List.map_singleton, ← hnext]
        · intro e he
          rcases List.mem_append.mp he with he | he
          · exact hg.events e he
          · rw [List.mem_singleton.mp he]
            exact hevent
        · rw [Gathering.following_elim, List.length_append]
          exact congrArg (· + 1) hnext
        · rw [List.map_append, List.sum_append, ← hg.total]
          rfl
      · cases hrun
  refine hexpect.bind fun _ => ?_
  refine (Gathering.look_leads (fun g ticks hg => ⟨hg.1.look ticks, hg.2⟩) _).bind fun _ => ?_
  rintro g ⟨hg, hlength⟩
  refine ⟨fun more g' hrun => ?_, fun _ _ _ => trivial⟩
  unfold run Gathering.push at hrun
  cases hrun
  by_cases hlt : g.events.length + 1 < maxEvents
  · rw [decide_eq_true hlt]
    exact ⟨hg, by rw [List.length_append]; exact lt_max_of_lt_right hlt⟩
  · rw [decide_eq_false hlt]
    exact ⟨hg, by rwa [List.length_append]⟩

/-- Room is made within the bytes a batch may have. -/
theorem Gathering.roomFor_leads {maxEvents size : ℕ} :
    Leads (fun g : Gathering last => Gathered p first maxBytes g ∧
        g.events.length < max 1 maxEvents)
      (Gathering.roomFor env maxBytes size)
      (midway (fun g => (Gathered p first maxBytes g ∧ g.events.length < max 1 maxEvents) ∧
          g.total + (size + eventSize) ≤ maxBytes)
        fun g => Gathered p first maxBytes g ∧ g.events.length ≤ max 1 maxEvents)
      fun _ => True := by
  refine fun g hg => ⟨fun ok g' hrun => ?_, fun _ _ _ => trivial⟩
  unfold Gathering.roomFor at hrun
  obtain ⟨_, _, hget, hrun⟩ := run_bind_eq_ok.mp hrun
  cases hget
  split at hrun
  · split at hrun
    · cases hrun
    · cases hrun
      exact ⟨hg.1, hg.2.le⟩
  · next hfits =>
    obtain ⟨_, g₁, hgrow, hrun⟩ := run_bind_eq_ok.mp hrun
    cases hrun
    obtain ⟨-, rfl⟩ := Prod.ext_iff.mp hgrow
    refine ⟨⟨hg.1.look _, hg.2⟩, ?_⟩
    cases hsize : checkedAdd size eventSize with
    | none =>
      rw [hsize] at hfits
      exact absurd rfl hfits
    | some n =>
      rw [hsize, Option.bind_some] at hfits
      cases htotal : checkedAdd g.total n with
      | none =>
        rw [htotal] at hfits
        exact absurd rfl hfits
      | some total =>
        rw [htotal] at hfits
        obtain ⟨rfl, -⟩ := checkedAdd_eq_some.mp hsize
        obtain ⟨rfl, -⟩ := checkedAdd_eq_some.mp htotal
        exact Nat.le_of_not_lt fun hlt => hfits (decide_eq_true hlt)

/-- **The visitor of a cursor gathers** the events of a view. -/
theorem Gathering.visitor_obeys (options : HistoryOptions) (deadline : ℕ) :
    (Gathering.visitor env options deadline).Obeys p
      (fun g : Gathering last => Gathered p first options.maxBytes g ∧
        g.events.length < max 1 options.maxEvents)
      (fun size g => (Gathered p first options.maxBytes g ∧
        g.events.length < max 1 options.maxEvents) ∧
          g.total + (size + eventSize) ≤ options.maxBytes)
      (fun g => Gathered p first options.maxBytes g ∧
        g.events.length ≤ max 1 options.maxEvents) where
  ready := Gathering.look_leads (fun g ticks hg => ⟨hg.1.look ticks, hg.2⟩) _
  check := Gathering.look_leads (fun g ticks hg => ⟨hg.1.look ticks, hg.2⟩) _
  answer _ _ := Gathering.look_leads (fun g ticks hg => ⟨⟨hg.1.1.look ticks, hg.1.2⟩, hg.2⟩) _
  admits _ := (Gathering.look_leads (fun g ticks hg => ⟨hg.1.look ticks, hg.2⟩) _).bind
    fun _ => Gathering.roomFor_leads
  visit _ _ hevent := Gathering.visit_leads hevent _
  read reading := by
    rintro g ⟨hg, hlength⟩
    refine ⟨fun a g' hrun => ?_, fun _ _ _ => trivial⟩
    obtain ⟨hresult, rfl⟩ := Prod.ext_iff.mp hrun
    exact ⟨ReadEnv.read_ok (Prod.ext hresult rfl), hg.look _, hlength⟩

end Gathering

/-- **A batch goes on from a version**, with events of the view, one for each version, and within
the events and the bytes it may have. -/
structure HistoryBatch.Continues (batch : HistoryBatch) (p : Event → Prop)
    (first maxEvents maxBytes : ℕ) : Prop where
  nonempty : batch.events ≠ []
  versions : batch.events.map (fun e => e.1.version) = List.range' first batch.events.length
  events : ∀ e ∈ batch.events, p e.1
  short : batch.events.length ≤ max 1 maxEvents
  total : batch.bytes = (batch.events.map fun e => e.2 + eventSize).sum
  bytes : batch.bytes ≤ maxBytes

section Batches

variable {env : ReadEnv} {p : Event → Prop} {cursor : HistoryCursor}
  {first : {version // version ≤ cursor.last}} {i j : ℕ}

/-- A visit gathers events of the view. -/
theorem HistoryCursor.gather_ok {state : ReadState} {deadline : ℕ} {complete : Bool}
    {g : Gathering cursor.last}
    (hp : ∀ event, state.Records cursor.table cursor.id event → p event)
    (h : (cursor.gather env first state deadline).run i = (.ok (complete, g), j)) :
    Gathered p first cursor.options.maxBytes g ∧
      g.events.length ≤ max 1 cursor.options.maxEvents := by
  have hobeys := @Gathering.visitor_obeys env p cursor.last first cursor.options deadline
  obtain ⟨hresult, -⟩ := Prod.ext_iff.mp h
  obtain ⟨complete', hvisit, heq⟩ := map_eq_ok.mp hresult
  obtain ⟨rfl, rfl⟩ := Prod.mk.inj heq
  have hstart : Gathered p first cursor.options.maxBytes
      { ticks := i, total := 0, expected := some first, events := [] } :=
    ⟨rfl, List.forall_mem_nil _, rfl, rfl, Nat.zero_le _⟩
  have hmidway := (hobeys.visitEvents hp first cursor.last _
    ⟨hstart, lt_max_of_lt_left Nat.one_pos⟩).1
    complete' _ (Prod.ext hvisit rfl)
  cases complete' with
  | true => exact ⟨hmidway.1, hmidway.2.le⟩
  | false => exact hmidway

/-- **A batch that is read continues the history**, up to the version that is next. -/
theorem HistoryCursor.readBatch_ok {batch : HistoryBatch}
    {next : Option {version // version ≤ cursor.last}} (hfirst : cursor.next = some first)
    (hp : ∀ snapshot ∈ cursor.snapshot, ∀ event,
      snapshot.state.Records cursor.table cursor.id event → p event)
    (h : (cursor.readBatch env).run i = (.ok (some (batch, next)), j)) :
    batch.Continues p first cursor.options.maxEvents cursor.options.maxBytes ∧
      next.elim (cursor.last + 1) Subtype.val = first + batch.events.length := by
  unfold HistoryCursor.readBatch at h
  rw [hfirst] at h
  obtain ⟨_, k, -, h⟩ := run_bind_eq_ok.mp h
  cases hsnapshot : cursor.snapshot with
  | none =>
    rw [hsnapshot] at h
    cases h
  | some snapshot =>
    rw [hsnapshot] at h
    obtain ⟨last, k, l, h⟩ := ReadSnapshot.withState_ok h
    obtain ⟨_, k, -, h⟩ := run_bind_eq_ok.mp h
    obtain ⟨_, k, -, h⟩ := run_bind_eq_ok.mp h
    obtain ⟨⟨complete, g⟩, m, hgather, h⟩ := run_bind_eq_ok.mp h
    obtain ⟨_, k, -, h⟩ := run_bind_eq_ok.mp h
    obtain ⟨hgathered, hshort⟩ := HistoryCursor.gather_ok (hp snapshot hsnapshot) hgather
    split at h
    · cases h
    · split at h
      · cases h
      · next hnonempty =>
        cases h
        exact ⟨⟨hnonempty, hgathered.versions, hgathered.events, hshort, hgathered.total,
          hgathered.bytes⟩,
          hgathered.expected⟩

/-- A cursor that is not finished reads a batch, or fails. -/
theorem HistoryCursor.readBatch_ne_none (hfirst : cursor.next = some first) :
    (cursor.readBatch env).run i ≠ (.ok none, j) := by
  intro h
  unfold HistoryCursor.readBatch at h
  rw [hfirst] at h
  obtain ⟨_, k, -, h⟩ := run_bind_eq_ok.mp h
  cases hsnapshot : cursor.snapshot with
  | none =>
    rw [hsnapshot] at h
    cases h
  | some snapshot =>
    rw [hsnapshot] at h
    obtain ⟨last, k, l, h⟩ := ReadSnapshot.withState_ok h
    obtain ⟨_, k, -, h⟩ := run_bind_eq_ok.mp h
    obtain ⟨_, k, -, h⟩ := run_bind_eq_ok.mp h
    obtain ⟨⟨complete, g⟩, m, -, h⟩ := run_bind_eq_ok.mp h
    obtain ⟨_, k, -, h⟩ := run_bind_eq_ok.mp h
    split at h
    · cases h
    · split at h
      · cases h
      · cases h

/-- The version a cursor goes on from; a finished one is behind the last version. -/
def HistoryCursor.start (cursor : HistoryCursor) : ℕ :=
  cursor.next.elim (cursor.last + 1) Subtype.val

/-- **What a call returns and leaves**: nothing once the cursor is finished; or an error, which
finishes it; or the last batch, which does, too; or a batch with the next version behind it. -/
inductive HistoryCursor.Returns (p : Event → Prop) (cursor : HistoryCursor) :
    Result (Option HistoryBatch) → HistoryCursor → Prop
  | nothing : cursor.next = none → Returns p cursor (.ok none) cursor.finished
  | failed (e : Error) : cursor.next ≠ none → Returns p cursor (.error e) cursor.finished
  | last (batch : HistoryBatch) :
    batch.Continues p cursor.start cursor.options.maxEvents cursor.options.maxBytes →
    cursor.last + 1 = cursor.start + batch.events.length →
    Returns p cursor (.ok (some batch)) cursor.finished
  | more (batch : HistoryBatch) (next : {version // version ≤ cursor.last}) :
    batch.Continues p cursor.start cursor.options.maxEvents cursor.options.maxBytes →
    next.1 = cursor.start + batch.events.length →
    Returns p cursor (.ok (some batch)) { cursor with next := some next }

/-- **What the next call returns and leaves.** -/
theorem HistoryCursor.nextBatch_returns (env : ReadEnv) (cursor : HistoryCursor) (tick : ℕ)
    (hp : ∀ snapshot ∈ cursor.snapshot, ∀ event,
      snapshot.state.Records cursor.table cursor.id event → p event) :
    cursor.Returns p (cursor.nextBatch env tick).1 (cursor.nextBatch env tick).2.1 := by
  unfold HistoryCursor.nextBatch
  cases hnext : cursor.next with
  | none =>
    have hnone : (cursor.readBatch env).run tick = (.ok none, tick) := by
      unfold HistoryCursor.readBatch
      rw [hnext]
      rfl
    rw [hnone]
    exact .nothing hnext
  | some first =>
    have hstart : cursor.start = first := by rw [HistoryCursor.start, hnext, Option.elim_some]
    rcases hread : (cursor.readBatch env).run tick with ⟨e | _ | ⟨batch, _ | next⟩, tick'⟩
    · exact .failed e (by rw [hnext]; exact Option.some_ne_none _)
    · exact absurd hread (HistoryCursor.readBatch_ne_none hnext)
    · obtain ⟨hcontinues, hbehind⟩ := HistoryCursor.readBatch_ok hnext hp hread
      rw [← hstart] at hcontinues hbehind
      exact .last batch hcontinues hbehind
    · obtain ⟨hcontinues, hbehind⟩ := HistoryCursor.readBatch_ok hnext hp hread
      rw [← hstart] at hcontinues hbehind
      exact .more batch next hcontinues hbehind

end Batches

end EveDB.Store
