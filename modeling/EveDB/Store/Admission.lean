import EveDB.Library.Totals
import EveDB.Store.Staging

/-!
# Admission counters

The counters that all connections of a database share, and the handles that hold a share of them
(`resources.rs`). A permit, a reservation or a memory reservation is taken, it grows, it is handed
from one owner to another, and when it is dropped what it holds is given back. Each call keeps the
mutex of the counters from its checks to its last addition, and a handle that grows is borrowed by
the one call, so the calls of all threads come one behind the other.

An addition that leaves 64 bits, or a subtraction that goes below zero, is an arithmetic overflow:
the thread panics (`Failure.overflow`). Everything else that goes wrong is an error that the caller
gets (`Failure.refused`).
-/

namespace EveDB.Store.Resources

open Std

/-- All seven counters. -/
structure Usage extends ResourceUsage where
  /-- Independent live snapshot pins. -/
  snapshots : ℕ
  /-- Checkpoint bytes charged to pins, counting files once per pin. -/
  pinnedBytes : ℕ

/-- A counter. -/
inductive Counter
  | decodedWriteBytes
  | readMemoryBytes
  | scratchBytes
  | transactions
  | snapshots
  | pinnedBytes
  | residentWriteBytes
  deriving DecidableEq

namespace Usage

/-- The counters of a database that is opened. -/
def default : Usage := ⟨⟨0, 0, 0, 0, 0⟩, 0, 0⟩

/-- Reads a counter. -/
def get (usage : Usage) : Counter → ℕ
  | .decodedWriteBytes => usage.decodedWriteBytes
  | .readMemoryBytes => usage.readMemoryBytes
  | .scratchBytes => usage.scratchBytes
  | .transactions => usage.transactions
  | .snapshots => usage.snapshots
  | .pinnedBytes => usage.pinnedBytes
  | .residentWriteBytes => usage.residentWriteBytes

/-- Writes a counter. -/
def put (usage : Usage) (counter : Counter) (n : ℕ) : Usage :=
  match counter with
  | .decodedWriteBytes => { usage with decodedWriteBytes := n }
  | .readMemoryBytes => { usage with readMemoryBytes := n }
  | .scratchBytes => { usage with scratchBytes := n }
  | .transactions => { usage with transactions := n }
  | .snapshots => { usage with snapshots := n }
  | .pinnedBytes => { usage with pinnedBytes := n }
  | .residentWriteBytes => { usage with residentWriteBytes := n }

end Usage

/-- The limit of a counter. -/
def bound (limits : Limits) : Counter → ℕ
  | .decodedWriteBytes => limits.maxResidentDecodedWriteBytes
  | .readMemoryBytes => limits.maxReadMemoryBytes
  | .scratchBytes => limits.maxScratchBytes
  | .transactions => limits.maxTransactions
  | .snapshots => limits.maxSnapshots
  | .pinnedBytes => limits.maxPinnedBytes
  | .residentWriteBytes => limits.maxResidentWriteBytes

/-- What goes wrong with a call. -/
inductive Failure
  | refused (error : Error)
  | overflow
  deriving DecidableEq

/-- A step under the mutex of the counters. -/
abbrev Locked (α : Type) := Fallible Failure Usage α

/-- A step of a handle under the mutex. -/
abbrev Growing (σ : Type) := Fallible Failure (Usage × σ) Unit

/-- The error of a check. -/
def checked (r : Result Unit) : Except Failure Unit := r.mapError .refused

/-- The sum of two sizes, unless it overflows. -/
def plus (a b : ℕ) : Except Failure ℕ :=
  match checkedAdd a b with
  | some sum => .ok sum
  | none => .error .overflow

/-- The difference of two sizes, unless it would be negative. -/
def minus (a b : ℕ) : Except Failure ℕ := if b ≤ a then .ok (a - b) else .error .overflow

/-- Adds to a counter. -/
def add (counter : Counter) (n : ℕ) : Locked Unit := do
  let usage ← get
  set (usage.put counter (← Fallible.lift (plus (usage.get counter) n)))

/-- Takes away from a counter. -/
def sub (counter : Counter) (n : ℕ) : Locked Unit := do
  let usage ← get
  set (usage.put counter (← Fallible.lift (minus (usage.get counter) n)))

/-- A step on the counters, beside a handle. -/
def beside {σ α : Type} (x : Locked α) : Fallible Failure (Usage × σ) α := fun s =>
  ((x.run s.1).1, (x.run s.1).2, s.2)

/-- **Lets a handle hold more**: what it asks is checked, and then a counter and the handle's own
field grow by the same number. -/
def enlarge {σ : Type} (asks : Usage → σ → Result Unit) (counter : σ → Counter) (own : σ → ℕ)
    (put : σ → ℕ → σ) (bytes : ℕ) : Fallible Failure (Usage × σ) Unit := do
  let s ← get
  Fallible.lift (checked (asks s.1 s.2))
  beside (add (counter s.2) bytes)
  let n ← Fallible.lift (plus (own s.2) bytes)
  modify fun s => (s.1, put s.2 n)

/-! ### Permits -/

/-- What a permit is for. -/
inductive Permit
  | transaction
  | snapshot (bytes : ℕ)

/-- Admits a transaction. -/
def transaction (limits : Limits) : Locked Permit := do
  let usage ← get
  Fallible.lift (checked
    (check "active transactions" usage.transactions 1 limits.maxTransactions))
  add .transactions 1
  return .transaction

/-- Admits a pin of a checkpoint. -/
def snapshot (limits : Limits) (bytes : ℕ) : Locked Permit := do
  let usage ← get
  Fallible.lift (checked (do
    check "active snapshots" usage.snapshots 1 limits.maxSnapshots
    check "pinned checkpoint bytes" usage.pinnedBytes bytes limits.maxPinnedBytes))
  add .snapshots 1
  add .pinnedBytes bytes
  return .snapshot bytes

/-- Gives a permit back. -/
def Permit.drop : Permit → Locked Unit
  | .transaction => sub .transactions 1
  | .snapshot bytes => do
    sub .snapshots 1
    sub .pinnedBytes bytes

/-! ### Write reservations -/

/-- A reservation that holds nothing yet. -/
def reservation : Reservation := ⟨0, 0⟩

namespace Reservation

/-- Takes decoded bytes, unless a recovery does, within the limits of a transaction and of all. -/
def growDecoded (limits : Limits) (bytes : ℕ) (recovery : Bool) : Growing Reservation :=
  enlarge
    (fun usage self =>
      if recovery then .ok ()
      else do
        check "transaction decoded bytes" self.decodedBytes bytes
          limits.maxTransactionDecodedBytes
        check "resident decoded write bytes" usage.decodedWriteBytes bytes
          limits.maxResidentDecodedWriteBytes)
    (fun _ => .decodedWriteBytes) (·.decodedBytes) (fun self n => { self with decodedBytes := n })
    bytes

/-- Takes encoded bytes without asking. -/
def recover (bytes : ℕ) : Growing Reservation :=
  enlarge (fun _ _ => .ok ()) (fun _ => .residentWriteBytes) (·.bytes)
    (fun self n => { self with bytes := n }) bytes

/-- Takes encoded bytes. -/
def grow (limits : Limits) (bytes : ℕ) : Growing Reservation :=
  enlarge
    (fun usage _ => check "resident mutation bytes" usage.residentWriteBytes bytes
      limits.maxResidentWriteBytes)
    (fun _ => .residentWriteBytes) (·.bytes) (fun self n => { self with bytes := n }) bytes

/-- Gives a reservation back. -/
def drop (self : Reservation) : Locked Unit := do
  sub .residentWriteBytes self.bytes
  sub .decodedWriteBytes self.decodedBytes

end Reservation

/-! ### Memory reservations -/

/-- What memory is for. -/
inductive MemoryKind
  | read
  | scratch
  deriving DecidableEq

namespace MemoryKind

/-- The counter that memory of a kind is charged to. -/
def counter : MemoryKind → Counter
  | read => .readMemoryBytes
  | scratch => .scratchBytes

/-- The limit of memory of a kind. -/
def limit (limits : Limits) : MemoryKind → ℕ
  | read => limits.maxReadMemoryBytes
  | scratch => limits.maxScratchBytes

/-- What an error calls memory of a kind. -/
def name : MemoryKind → String
  | read => "decoded read bytes"
  | scratch => "scratch bytes"

end MemoryKind

/-- Memory that has been reserved. -/
structure MemoryReservation where
  kind : MemoryKind
  bytes : ℕ

namespace MemoryReservation

/-- Takes memory, unless a recovery does, within the limit of its kind. -/
def grow (limits : Limits) (bytes : ℕ) (recovery : Bool) : Growing MemoryReservation :=
  enlarge
    (fun usage self =>
      if recovery then .ok ()
      else check self.kind.name (usage.get self.kind.counter) bytes (self.kind.limit limits))
    (fun self => self.kind.counter) (·.bytes) (fun self n => { self with bytes := n }) bytes

/-- Gives memory back. -/
def drop (self : MemoryReservation) : Locked Unit := sub self.kind.counter self.bytes

end MemoryReservation

/-- Reserves memory. A reservation that is refused its first bytes is dropped. -/
def memory (limits : Limits) (kind : MemoryKind) (bytes : ℕ) (recovery : Bool) :
    Locked MemoryReservation := fun usage =>
  match (MemoryReservation.grow limits bytes recovery).run (usage, ⟨kind, 0⟩) with
  | (.ok (), usage, memory) => (.ok memory, usage)
  | (.error .overflow, usage, _) => (.error .overflow, usage)
  | (.error (.refused e), usage, memory) =>
    ((do memory.drop; Fallible.lift (.error (.refused e))) : Locked MemoryReservation).run usage

/-! ### All handles -/

/-- A handle. -/
inductive Handle
  | permit (permit : Permit)
  | reservation (reservation : Reservation)
  | memory (memory : MemoryReservation)

namespace Handle

/-- What a handle holds of a counter. -/
def holds : Handle → Counter → ℕ
  | .permit .transaction, .transactions => 1
  | .permit (.snapshot _), .snapshots => 1
  | .permit (.snapshot bytes), .pinnedBytes => bytes
  | .reservation self, .residentWriteBytes => self.bytes
  | .reservation self, .decodedWriteBytes => self.decodedBytes
  | .memory self, counter => if counter = self.kind.counter then self.bytes else 0
  | _, _ => 0

/-- Gives back what a handle holds. -/
def drop : Handle → Locked Unit
  | .permit self => self.drop
  | .reservation self => Reservation.drop self
  | .memory self => self.drop

/-- A call on a reservation. No other handle has it. -/
def onReservation (x : Growing Reservation) : Growing Handle := fun s =>
  match s.2 with
  | .reservation self => let (r, usage, self) := x.run (s.1, self); (r, usage, .reservation self)
  | _ => (.ok (), s)

/-- A call on a memory reservation. -/
def onMemory (x : Growing MemoryReservation) : Growing Handle := fun s =>
  match s.2 with
  | .memory self => let (r, usage, self) := x.run (s.1, self); (r, usage, .memory self)
  | _ => (.ok (), s)

/-- The counter that a call on a reservation is about. -/
def reservationCounters (counter : Counter) : Handle → List Counter
  | .reservation _ => [counter]
  | _ => []

/-- The counter that a call on a memory reservation is about. -/
def memoryCounters : Handle → List Counter
  | .memory self => [self.kind.counter]
  | _ => []

end Handle

/-- A live handle, and who has it. -/
structure Held where
  owner : ℕ
  handle : Handle

/-- **The counters, and all live handles** under names of their own. -/
structure Holdings where
  usage : Usage
  held : SortedMap ℕ Held
  next : ℕ

/-- A call of a thread. -/
inductive Call
  | transaction (owner : ℕ)
  | snapshot (owner bytes : ℕ)
  | reservation (owner : ℕ)
  | memory (owner : ℕ) (kind : MemoryKind) (bytes : ℕ) (recovery : Bool)
  | growDecoded (id bytes : ℕ) (recovery : Bool)
  | recover (id bytes : ℕ)
  | grow (id bytes : ℕ)
  | growMemory (id bytes : ℕ) (recovery : Bool)
  | move (id owner : ℕ)
  | drop (id : ℕ)

namespace Holdings

/-- No handle is live when a database is opened. -/
def opened : Holdings := { usage := .default, held := ∅, next := 0 }

/-- Takes a handle. -/
def acquire (owner : ℕ) (x : Locked Handle) : Fallible Failure Holdings Unit := fun s =>
  match x.run s.usage with
  | (.ok handle, usage) =>
    (.ok (), { usage, held := s.held.insert s.next ⟨owner, handle⟩, next := s.next + 1 })
  | (.error e, usage) => (.error e, { s with usage })

/-- Calls a live handle. -/
def onHandle (id : ℕ) (x : Growing Handle) : Fallible Failure Holdings Unit := fun s =>
  match s.held[id]? with
  | none => (.ok (), s)
  | some held =>
    let (r, usage, handle) := x.run (s.usage, held.handle)
    (r, { s with usage, held := s.held.insert id { held with handle } })

/-- Drops a live handle. -/
def release (id : ℕ) : Fallible Failure Holdings Unit := fun s =>
  match s.held[id]? with
  | none => (.ok (), s)
  | some held =>
    let (r, usage) := held.handle.drop.run s.usage
    (r, { s with usage, held := s.held.erase id })

/-- Hands a live handle to another owner. -/
def handOver (id owner : ℕ) : Fallible Failure Holdings Unit := fun s =>
  match s.held[id]? with
  | none => (.ok (), s)
  | some held => (.ok (), { s with held := s.held.insert id { held with owner } })

/-- **A call of any thread.** -/
def perform (limits : Limits) : Call → Fallible Failure Holdings Unit
  | .transaction owner => acquire owner (.permit <$> transaction limits)
  | .snapshot owner bytes => acquire owner (.permit <$> snapshot limits bytes)
  | .reservation owner => acquire owner (pure (.reservation reservation))
  | .memory owner kind bytes recovery =>
    acquire owner (.memory <$> memory limits kind bytes recovery)
  | .growDecoded id bytes recovery =>
    onHandle id (Handle.onReservation (Reservation.growDecoded limits bytes recovery))
  | .recover id bytes => onHandle id (Handle.onReservation (Reservation.recover bytes))
  | .grow id bytes => onHandle id (Handle.onReservation (Reservation.grow limits bytes))
  | .growMemory id bytes recovery =>
    onHandle id (Handle.onMemory (MemoryReservation.grow limits bytes recovery))
  | .move id owner => handOver id owner
  | .drop id => release id

/-- **The holdings behind some calls**, in the order of the mutex, unless a thread panics. A call
that is refused is over. -/
def after (limits : Limits) : List Call → Holdings → Option Holdings
  | [], s => some s
  | call :: calls, s =>
    match (perform limits call).run s with
    | (.error .overflow, _) => none
    | (_, s) => after limits calls s

end Holdings

/-! ### One call -/

section Counters

variable {usage : Usage} {counter : Counter} {n : ℕ}

@[simp] theorem get_put (usage : Usage) (counter other : Counter) (n : ℕ) :
    (usage.put counter n).get other = if other = counter then n else usage.get other := by
  cases counter <;> cases other <;> rfl

theorem put_get (usage : Usage) (counter : Counter) :
    usage.put counter (usage.get counter) = usage := by
  cases counter <;> rfl

theorem run_add (h : usage.get counter + n ≤ maxU64) :
    (add counter n).run usage = (.ok (), usage.put counter (usage.get counter + n)) := by
  rw [add, Fallible.run_bind_of_ok (Fallible.run_get usage), Fallible.run_bind_of_ok]
  · rfl
  · rw [Fallible.run_lift, plus, checkedAdd, if_pos h]

theorem run_add_overflow (h : maxU64 < usage.get counter + n) :
    (add counter n).run usage = (.error .overflow, usage) := by
  rw [add, Fallible.run_bind_of_ok (Fallible.run_get usage), Fallible.run_bind_of_error]
  rw [Fallible.run_lift, plus, checkedAdd, if_neg (Nat.not_le.mpr h)]

/-- **What is held can be taken away.** -/
theorem run_sub (h : n ≤ usage.get counter) :
    (sub counter n).run usage = (.ok (), usage.put counter (usage.get counter - n)) := by
  rw [sub, Fallible.run_bind_of_ok (Fallible.run_get usage), Fallible.run_bind_of_ok]
  · rfl
  · rw [Fallible.run_lift, minus, if_pos h]

theorem run_beside {σ : Type} {x : Locked Unit} {r : Except Failure Unit} {usage' : Usage}
    (h : x.run usage = (r, usage')) (self : σ) :
    (beside x : Growing σ).run (usage, self) = (r, usage', self) := by
  change ((x.run usage).1, (x.run usage).2, self) = _
  rw [h]

end Counters

/-- What there is of a handle, if it is live. -/
def heldOf (handle : Option Handle) (counter : Counter) : ℕ :=
  (handle.map fun handle => handle.holds counter).getD 0

/-- **What a call may come to**, with the counters and the handle before and after it. When it is
done, each counter has changed as what the handle holds has, and is within its limit if the call
asked. A call that is refused has changed nothing. Only a call that does not ask can overflow a
counter. -/
inductive Accounted (limits : Limits) (recovery : Bool) (counters : List Counter) (bytes : ℕ)
    (before after : Usage × Option Handle) : Except Failure Unit → Prop
  | done (hcount : ∀ c, after.1.get c + heldOf before.2 c = before.1.get c + heldOf after.2 c)
      (hbound : recovery = false → ∀ c ∈ counters, after.1.get c ≤ bound limits c) :
      Accounted limits recovery counters bytes before after (.ok ())
  | refused (e : Error) (hsame : after = before) :
      Accounted limits recovery counters bytes before after (.error (.refused e))
  | overflow (hrecovery : recovery = true)
      (hover : ∃ c ∈ counters, maxU64 < before.1.get c + bytes) :
      Accounted limits recovery counters bytes before after (.error .overflow)

/-- **A growing handle is accounted for**, as the handle that it is. -/
def Grows {σ : Type} (limits : Limits) (recovery : Bool) (x : Growing σ) (counters : List Counter)
    (bytes : ℕ) (wrap : σ → Handle) (usage : Usage) (self : σ) : Prop :=
  Accounted limits recovery counters bytes (usage, some (wrap self))
    ((x.run (usage, self)).2.1, some (wrap (x.run (usage, self)).2.2)) (x.run (usage, self)).1

section Calls

variable {limits : Limits} {recovery : Bool} {usage : Usage} {bytes : ℕ}

section Enlarge

variable {σ : Type} {asks : Usage → σ → Result Unit} {counter : σ → Counter} {own : σ → ℕ}
  {put : σ → ℕ → σ} {self : σ}

/-- **A handle that holds more** is accounted for, whatever kind of handle it is. -/
theorem grows_enlarge (wrap : σ → Handle)
    (hown : (wrap self).holds (counter self) = own self)
    (hput : ∀ n c, (wrap (put self n)).holds c =
      if c = counter self then n else (wrap self).holds c)
    (hle : own self ≤ usage.get (counter self))
    (hasks : recovery = false → asks usage self = .ok () →
      usage.get (counter self) + bytes ≤ maxU64 ∧
        usage.get (counter self) + bytes ≤ bound limits (counter self)) :
    Grows limits recovery (enlarge asks counter own put bytes) [counter self] bytes wrap usage
      self := by
  unfold Grows
  generalize hout : (enlarge asks counter own put bytes).run (usage, self) = out
  rw [enlarge, Fallible.run_bind_of_ok (Fallible.run_get _)] at hout
  rcases hchecked : asks usage self with e | ⟨⟩
  · have hrefused : (Fallible.lift (checked (asks usage self)) : Growing σ).run (usage, self) =
        (.error (.refused e), usage, self) := by
      rw [hchecked]
      rfl
    rw [Fallible.run_bind_of_error hrefused] at hout
    rw [← hout]
    exact .refused e rfl
  have hadmitted : (Fallible.lift (checked (asks usage self)) : Growing σ).run (usage, self) =
      (.ok (), usage, self) := by
    rw [hchecked]
    rfl
  rw [Fallible.run_bind_of_ok hadmitted] at hout
  by_cases hover : maxU64 < usage.get (counter self) + bytes
  · rw [Fallible.run_bind_of_error (run_beside (run_add_overflow hover) self)] at hout
    rw [← hout]
    refine .overflow ?_ ⟨_, List.mem_singleton_self _, hover⟩
    by_contra hasked
    exact absurd (hasks (Bool.eq_false_iff.mpr hasked) hchecked).1 (Nat.not_le.mpr hover)
  · -- the field of the handle is part of the counter, so it does not overflow either
    have hsum := Nat.not_lt.mp hover
    have hfield : own self + bytes ≤ maxU64 := by omega
    have hplus (s : Usage × σ) : (Fallible.lift (plus (own self) bytes) :
        Fallible Failure (Usage × σ) ℕ).run s = (.ok (own self + bytes), s) := by
      rw [Fallible.run_lift, plus, checkedAdd, if_pos hfield]
    rw [Fallible.run_bind_of_ok (run_beside (run_add hsum) self),
      Fallible.run_bind_of_ok (hplus _)] at hout
    rw [← hout]
    refine .done (fun c => ?_) fun hasked c hc => ?_
    · change (usage.put _ _).get c + (wrap self).holds c =
        usage.get c + (wrap (put self (own self + bytes))).holds c
      rw [get_put, hput]
      split_ifs with hc
      · rw [hc, hown]
        omega
      · rfl
    · rw [List.mem_singleton.mp hc]
      change (usage.put _ _).get _ ≤ _
      rw [get_put, if_pos rfl]
      exact (hasks hasked hchecked).2

end Enlarge

section Methods

variable {handle : Handle}

/-- A handle that does not have a call is not changed by it. -/
theorem accounted_unchanged (limits : Limits) (recovery : Bool) (bytes : ℕ)
    (state : Usage × Option Handle) :
    Accounted limits recovery [] bytes state state (.ok ()) :=
  .done (fun _ => rfl) fun _ _ hc => absurd hc List.not_mem_nil

theorem grows_onReservation {x : Growing Reservation} {counter : Counter}
    (hx : ∀ self, handle = .reservation self →
      Grows limits recovery x [counter] bytes .reservation usage self) :
    Grows limits recovery (Handle.onReservation x) (handle.reservationCounters counter) bytes id
      usage handle := by
  cases handle with
  | permit self => exact accounted_unchanged limits recovery bytes _
  | reservation self => exact hx self rfl
  | memory self => exact accounted_unchanged limits recovery bytes _

theorem grows_growDecoded (hle : ∀ c, handle.holds c ≤ usage.get c) :
    Grows limits recovery (Handle.onReservation (Reservation.growDecoded limits bytes recovery))
      (handle.reservationCounters .decodedWriteBytes) bytes id usage handle := by
  refine grows_onReservation ?_
  rintro self rfl
  refine grows_enlarge .reservation rfl ?_ (hle .decodedWriteBytes) ?_
  · rintro n (_ | _ | _ | _ | _ | _ | _) <;> rfl
  · intro hasked hok
    rw [if_neg (Bool.eq_false_iff.mp hasked)] at hok
    obtain ⟨⟨⟩, -, hcheck⟩ := bind_eq_ok.mp hok
    exact check_eq_ok.mp hcheck

theorem grows_recover (hle : ∀ c, handle.holds c ≤ usage.get c) :
    Grows limits true (Handle.onReservation (Reservation.recover bytes))
      (handle.reservationCounters .residentWriteBytes) bytes id usage handle := by
  refine grows_onReservation ?_
  rintro self rfl
  refine grows_enlarge .reservation rfl ?_ (hle .residentWriteBytes) ?_
  · rintro n (_ | _ | _ | _ | _ | _ | _) <;> rfl
  · rintro ⟨⟩

theorem grows_grow (hle : ∀ c, handle.holds c ≤ usage.get c) :
    Grows limits false (Handle.onReservation (Reservation.grow limits bytes))
      (handle.reservationCounters .residentWriteBytes) bytes id usage handle := by
  refine grows_onReservation ?_
  rintro self rfl
  refine grows_enlarge .reservation rfl ?_ (hle .residentWriteBytes) ?_
  · rintro n (_ | _ | _ | _ | _ | _ | _) <;> rfl
  · exact fun _ hok => check_eq_ok.mp hok

/-- Memory of either kind is admitted by the counter of its kind. -/
theorem grows_memory {self : MemoryReservation} (hle : self.bytes ≤ usage.get self.kind.counter) :
    Grows limits recovery (MemoryReservation.grow limits bytes recovery) [self.kind.counter] bytes
      .memory usage self := by
  refine grows_enlarge .memory (if_pos rfl) ?_ hle ?_
  · intro n c
    change (if c = self.kind.counter then n else 0) =
      if c = self.kind.counter then n else if c = self.kind.counter then self.bytes else 0
    split_ifs <;> rfl
  · intro hasked hok
    rw [if_neg (Bool.eq_false_iff.mp hasked)] at hok
    have hbound : self.kind.limit limits = bound limits self.kind.counter := by
      cases self.kind <;> rfl
    rw [← hbound]
    exact check_eq_ok.mp hok

theorem grows_growMemory (hle : ∀ c, handle.holds c ≤ usage.get c) :
    Grows limits recovery (Handle.onMemory (MemoryReservation.grow limits bytes recovery))
      handle.memoryCounters bytes id usage handle := by
  cases handle with
  | permit self => exact accounted_unchanged limits recovery bytes _
  | reservation self => exact accounted_unchanged limits recovery bytes _
  | memory self =>
    refine grows_memory ?_
    have hself := hle self.kind.counter
    rwa [Handle.holds, if_pos rfl] at hself

/-- **A handle that is taken is accounted for.** -/
def Takes (limits : Limits) (recovery : Bool) (x : Locked Handle) (counters : List Counter)
    (bytes : ℕ) (usage : Usage) : Prop :=
  Accounted limits recovery counters bytes (usage, none)
    ((x.run usage).2, (x.run usage).1.toOption) ((x.run usage).1.map fun _ => ())

theorem run_checked {σ : Type} {r : Result Unit} {e : Error} (h : r = .error e) (s : σ) :
    (Fallible.lift (checked r) : Fallible Failure σ Unit).run s = (.error (.refused e), s) := by
  rw [h]
  rfl

theorem run_checked_ok {σ : Type} {r : Result Unit} (h : r = .ok ()) (s : σ) :
    (Fallible.lift (checked r) : Fallible Failure σ Unit).run s = (.ok (), s) := by
  rw [h]
  rfl

theorem run_map {σ α β : Type} {x : Fallible Failure σ α} {s s' : σ} {r : Except Failure α}
    (h : x.run s = (r, s')) (f : α → β) : (f <$> x).run s = (r.map f, s') := by
  change (x >>= fun a => pure (f a)).run s = _
  rcases r with e | a
  · exact Fallible.run_bind_of_error h _
  · exact Fallible.run_bind_of_ok h _

theorem takes_transaction :
    Takes limits false (.permit <$> transaction limits) [.transactions] 1 usage := by
  unfold Takes
  rcases hcheck : check "active transactions" usage.transactions 1 limits.maxTransactions
    with e | ⟨⟩
  · have hrun : (transaction limits).run usage = (.error (.refused e), usage) := by
      rw [transaction, Fallible.run_bind_of_ok (Fallible.run_get usage),
        Fallible.run_bind_of_error (run_checked hcheck usage)]
    rw [run_map hrun]
    exact .refused e rfl
  · obtain ⟨hsum, hbound⟩ := check_eq_ok.mp hcheck
    have hrun : (transaction limits).run usage =
        (.ok .transaction, usage.put .transactions (usage.transactions + 1)) := by
      rw [transaction, Fallible.run_bind_of_ok (Fallible.run_get usage),
        Fallible.run_bind_of_ok (run_checked_ok hcheck usage),
        Fallible.run_bind_of_ok (run_add hsum)]
      rfl
    rw [run_map hrun]
    refine .done ?_ fun _ c hc => ?_
    · rintro (_ | _ | _ | _ | _ | _ | _) <;> rfl
    · rw [List.mem_singleton.mp hc]
      exact hbound

theorem takes_snapshot : Takes limits false (.permit <$> snapshot limits bytes)
    [.snapshots, .pinnedBytes] bytes usage := by
  unfold Takes
  rcases hcheck : (do
      check "active snapshots" usage.snapshots 1 limits.maxSnapshots
      check "pinned checkpoint bytes" usage.pinnedBytes bytes limits.maxPinnedBytes : Result Unit)
    with e | ⟨⟩
  · -- neither counter has changed when either check fails
    have hrun : (snapshot limits bytes).run usage = (.error (.refused e), usage) := by
      rw [snapshot, Fallible.run_bind_of_ok (Fallible.run_get usage),
        Fallible.run_bind_of_error (run_checked hcheck usage)]
    rw [run_map hrun]
    exact .refused e rfl
  · obtain ⟨⟨⟩, hpins, hbytes⟩ := bind_eq_ok.mp hcheck
    obtain ⟨hpin, hpinBound⟩ := check_eq_ok.mp hpins
    obtain ⟨hsum, hbound⟩ := check_eq_ok.mp hbytes
    have hrun : (snapshot limits bytes).run usage = (.ok (.snapshot bytes),
        (usage.put .snapshots (usage.snapshots + 1)).put .pinnedBytes
          (usage.pinnedBytes + bytes)) := by
      have hpinned : (usage.put .snapshots (usage.get .snapshots + 1)).get .pinnedBytes + bytes ≤
          maxU64 := hsum
      rw [snapshot, Fallible.run_bind_of_ok (Fallible.run_get usage),
        Fallible.run_bind_of_ok (run_checked_ok hcheck usage),
        Fallible.run_bind_of_ok (@run_add usage .snapshots 1 hpin),
        Fallible.run_bind_of_ok (run_add hpinned)]
      rfl
    rw [run_map hrun]
    refine .done ?_ fun _ c hc => ?_
    · rintro (_ | _ | _ | _ | _ | _ | _) <;> rfl
    · rcases List.mem_pair.mp hc with rfl | rfl
      · exact hpinBound
      · exact hbound

theorem takes_reservation :
    Takes limits false (pure (.reservation reservation)) [] 0 usage := by
  refine .done ?_ fun _ c hc => absurd hc List.not_mem_nil
  rintro (_ | _ | _ | _ | _ | _ | _) <;> rfl

theorem takes_memory {kind : MemoryKind} :
    Takes limits recovery (.memory <$> memory limits kind bytes recovery) [kind.counter] bytes
      usage := by
  have hgrows := @grows_memory limits recovery usage bytes ⟨kind, 0⟩ (Nat.zero_le _)
  unfold Grows at hgrows
  unfold Takes
  generalize hgrow : (MemoryReservation.grow limits bytes recovery).run
    (usage, (⟨kind, 0⟩ : MemoryReservation)) = out at hgrows
  obtain ⟨r, usage', self⟩ := out
  have hrun {r' : Except Failure MemoryReservation} {usage'' : Usage}
      (h : (memory limits kind bytes recovery).run usage = (r', usage'')) :
      (Handle.memory <$> memory limits kind bytes recovery).run usage =
        (r'.map .memory, usage'') := run_map h _
  have hmemory : (memory limits kind bytes recovery).run usage =
      memory limits kind bytes recovery usage := rfl
  rw [memory, hgrow] at hmemory
  cases hgrows with
  | done hcount hbound =>
    rw [hrun hmemory]
    refine .done (fun c => ?_) hbound
    have hzero : heldOf (some (.memory ⟨kind, 0⟩)) c = 0 := ite_self 0
    have hc := hcount c
    rw [hzero] at hc
    exact hc
  | refused e hsame =>
    -- the reservation that is dropped holds nothing
    obtain ⟨rfl, hself⟩ := Prod.mk.inj hsame
    obtain rfl := Handle.memory.inj (Option.some.inj hself)
    have hdrop : (MemoryReservation.drop ⟨kind, 0⟩).run usage' = (.ok (), usage') := by
      rw [MemoryReservation.drop, run_sub (Nat.zero_le _), Nat.sub_zero, put_get]
    dsimp only at hmemory
    rw [Fallible.run_bind_of_ok hdrop] at hmemory
    rw [hrun hmemory]
    exact .refused e rfl
  | overflow hrecovery hover =>
    rw [hrun hmemory]
    exact .overflow hrecovery hover

/-- **A handle that is dropped** gives back what it holds, and that is there. -/
theorem run_drop (hle : ∀ c, handle.holds c ≤ usage.get c) :
    ∃ usage', handle.drop.run usage = (.ok (), usage') ∧
      ∀ c, usage'.get c + handle.holds c = usage.get c := by
  cases handle with
  | permit self =>
    cases self with
    | transaction =>
      refine ⟨_, run_sub (hle .transactions), ?_⟩
      have hone : 1 ≤ usage.transactions := hle .transactions
      rintro (_ | _ | _ | _ | _ | _ | _) <;> try rfl
      exact Nat.sub_add_cancel hone
    | snapshot bytes =>
      have hone : 1 ≤ usage.snapshots := hle .snapshots
      have hbytes : bytes ≤ usage.pinnedBytes := hle .pinnedBytes
      have hpinned : bytes ≤ (usage.put .snapshots (usage.get .snapshots - 1)).get .pinnedBytes :=
        hbytes
      have hrun := Fallible.run_bind_of_ok (run_sub (hle .snapshots)) fun _ =>
        sub .pinnedBytes bytes
      refine ⟨_, hrun.trans (run_sub hpinned), ?_⟩
      rintro (_ | _ | _ | _ | _ | _ | _) <;> try rfl
      · exact Nat.sub_add_cancel hone
      · exact Nat.sub_add_cancel hbytes
  | reservation self =>
    have hwritten : self.bytes ≤ usage.residentWriteBytes := hle .residentWriteBytes
    have hdecoded : self.decodedBytes ≤ usage.decodedWriteBytes := hle .decodedWriteBytes
    have hleft : self.decodedBytes ≤ (usage.put .residentWriteBytes
        (usage.get .residentWriteBytes - self.bytes)).get .decodedWriteBytes := hdecoded
    have hrun := Fallible.run_bind_of_ok (run_sub (hle .residentWriteBytes)) fun _ =>
      sub .decodedWriteBytes self.decodedBytes
    refine ⟨_, hrun.trans (run_sub hleft), ?_⟩
    rintro (_ | _ | _ | _ | _ | _ | _) <;> try rfl
    · exact Nat.sub_add_cancel hdecoded
    · exact Nat.sub_add_cancel hwritten
  | memory self =>
    have hself : self.bytes ≤ usage.get self.kind.counter := by
      have hkind := hle self.kind.counter
      rwa [Handle.holds, if_pos rfl] at hkind
    refine ⟨_, run_sub hself, fun c => ?_⟩
    rw [get_put, Handle.holds]
    split_ifs with hc
    · rw [hc]
      exact Nat.sub_add_cancel hself
    · rfl

end Methods

end Calls

/-! ### All calls -/

/-- A call that grows without asking. -/
def Call.recovers : Call → Bool
  | .memory _ _ _ recovery | .growDecoded _ _ recovery | .growMemory _ _ recovery => recovery
  | .recover _ _ => true
  | _ => false

/-- What a call adds to its counters. -/
def Call.bytes : Call → ℕ
  | .transaction _ => 1
  | .snapshot _ bytes | .memory _ _ bytes _ | .growDecoded _ bytes _ | .recover _ bytes
  | .grow _ bytes | .growMemory _ bytes _ => bytes
  | _ => 0

/-- What a live handle says. -/
def Holdings.countersOf (s : Holdings) (id : ℕ) (counters : Handle → List Counter) :
    List Counter := (s.held[id]?.map fun held => counters held.handle).getD []

/-- The counters that a call adds to. -/
def Call.counters (s : Holdings) : Call → List Counter
  | .transaction _ => [.transactions]
  | .snapshot _ _ => [.snapshots, .pinnedBytes]
  | .memory _ kind _ _ => [kind.counter]
  | .growDecoded id _ _ => s.countersOf id (Handle.reservationCounters .decodedWriteBytes)
  | .recover id _ | .grow id _ =>
    s.countersOf id (Handle.reservationCounters .residentWriteBytes)
  | .growMemory id _ _ => s.countersOf id Handle.memoryCounters
  | .reservation _ | .move _ _ | .drop _ => []

namespace Holdings

/-- What all live handles together hold of a counter. -/
def total (s : Holdings) (counter : Counter) : ℕ :=
  SortedMap.total (fun _ held => held.handle.holds counter) s.held

/-- **The counters equal what is held.** -/
structure Balanced (s : Holdings) : Prop where
  count : ∀ counter, s.usage.get counter = s.total counter
  fresh : ∀ id ∈ s.held, id < s.next

/-- What becomes of balanced holdings by a call. -/
def Settled (limits : Limits) (recovery : Bool) (counters : List Counter) (bytes : ℕ)
    (s : Holdings) (out : Except Failure Unit × Holdings) : Prop :=
  (out.1 = .ok () ∧ out.2.Balanced ∧
      (recovery = false → ∀ c ∈ counters, out.2.usage.get c ≤ bound limits c)) ∨
    (∃ e, out.1 = .error (.refused e) ∧ out.2 = s) ∨
    out.1 = .error .overflow ∧ recovery = true ∧ ∃ c ∈ counters, maxU64 < s.usage.get c + bytes

section Balanced

variable {s : Holdings} {limits : Limits} {recovery : Bool} {counters : List Counter}
  {bytes name owner : ℕ} {held : Held}

theorem Balanced.opened : opened.Balanced where
  count counter := by
    rw [total, Holdings.opened, SortedMap.total_empty]
    cases counter <;> rfl
  fresh _ hid := absurd hid Std.ExtTreeMap.not_mem_empty

theorem weightAt_of_get (h : s.held[name]? = some held) (counter : Counter) :
    SortedMap.weightAt (fun _ held => held.handle.holds counter) s.held name =
      held.handle.holds counter := by
  rw [SortedMap.weightAt, h]
  rfl

/-- **A live handle holds no more than is counted.** -/
theorem Balanced.holds_le (h : s.Balanced) (hget : s.held[name]? = some held) (counter : Counter) :
    held.handle.holds counter ≤ s.usage.get counter := by
  have htotal := SortedMap.total_erase (fun _ held => held.handle.holds counter) s.held name
  rw [weightAt_of_get hget] at htotal
  rw [h.count, total]
  omega

/-- A handle that changes as the counters do leaves the balance. -/
theorem Balanced.change (h : s.Balanced) (hget : s.held[name]? = some held) {held' : Held}
    {usage : Usage} (hcount : ∀ c, usage.get c + held.handle.holds c =
      s.usage.get c + held'.handle.holds c) :
    Balanced { s with usage, held := s.held.insert name held' } where
  count c := by
    have htotal := SortedMap.total_insert (fun _ held => held.handle.holds c) s.held name held'
    rw [weightAt_of_get hget] at htotal
    have hc := hcount c
    rw [h.count, total] at hc
    change usage.get c = SortedMap.total (fun _ held => held.handle.holds c)
      (s.held.insert name held')
    omega
  fresh id' hid' := by
    rcases Std.ExtTreeMap.mem_insert.mp hid' with heq | hid'
    · rw [← Std.LawfulEqOrd.eq_of_compare heq]
      refine h.fresh name ?_
      rw [Std.ExtTreeMap.mem_iff_isSome_getElem?, hget]
      rfl
    · exact h.fresh id' hid'

/-- **A handle that is taken** leaves the balance, or nothing has changed. -/
theorem Balanced.acquire (h : s.Balanced) {x : Locked Handle}
    (hx : Takes limits recovery x counters bytes s.usage) :
    Settled limits recovery counters bytes s ((acquire owner x).run s) := by
  have hrun : (Holdings.acquire owner x).run s = Holdings.acquire owner x s := rfl
  unfold Takes at hx
  rw [Holdings.acquire] at hrun
  generalize hout : x.run s.usage = out at hx hrun
  obtain ⟨_ | handle, usage⟩ := out
  · rw [hrun]
    cases hx with
    | refused e hsame =>
      obtain ⟨rfl, -⟩ := Prod.mk.inj hsame
      exact Or.inr (Or.inl ⟨e, rfl, rfl⟩)
    | overflow hrecovery hover => exact Or.inr (Or.inr ⟨rfl, hrecovery, hover⟩)
  · rw [hrun]
    cases hx with
    | done hcount hbound =>
      have hnew : s.next ∉ s.held := fun hmem => absurd (h.fresh _ hmem) (Nat.lt_irrefl _)
      refine Or.inl ⟨rfl, ⟨fun c => ?_, fun id hid => ?_⟩, hbound⟩
      · have hc : usage.get c + 0 = s.usage.get c + handle.holds c := hcount c
        rw [h.count] at hc
        change usage.get c = SortedMap.total (fun _ held => held.handle.holds c)
          (s.held.insert s.next ⟨owner, handle⟩)
        rw [SortedMap.total_insert_of_not_mem hnew]
        change usage.get c = handle.holds c + s.total c
        omega
      · rcases Std.ExtTreeMap.mem_insert.mp hid with heq | hid
        · rw [← Std.LawfulEqOrd.eq_of_compare heq]
          exact Nat.lt_succ_self _
        · exact (h.fresh id hid).trans (Nat.lt_succ_self _)

/-- **A call on a live handle** leaves the balance, or nothing has changed. -/
theorem Balanced.onHandle (h : s.Balanced) {x : Growing Handle} {about : Handle → List Counter}
    (hx : ∀ handle : Handle, (∀ c, handle.holds c ≤ s.usage.get c) →
      Grows limits recovery x (about handle) bytes id s.usage handle) (name : ℕ) :
    Settled limits recovery (s.countersOf name about) bytes s ((onHandle name x).run s) := by
  have hrun : (Holdings.onHandle name x).run s = Holdings.onHandle name x s := rfl
  rw [Holdings.onHandle] at hrun
  rw [hrun, countersOf]
  rcases hget : s.held[name]? with _ | held
  · exact Or.inl ⟨rfl, h, fun _ c hc => absurd hc List.not_mem_nil⟩
  have hgrows := hx held.handle (h.holds_le hget)
  unfold Grows at hgrows
  generalize hout : x.run (s.usage, held.handle) = out at hgrows
  obtain ⟨r, usage, handle⟩ := out
  dsimp only [Option.map_some, Option.getD_some]
  rw [hout]
  cases hgrows with
  | done hcount hbound => exact Or.inl ⟨rfl, h.change hget hcount, hbound⟩
  | refused e hsame =>
    obtain ⟨rfl, hhandle⟩ := Prod.mk.inj hsame
    obtain rfl := Option.some.inj hhandle
    refine Or.inr (Or.inl ⟨e, rfl, ?_⟩)
    have hinsert : s.held.insert name held = s.held := SortedMap.insert_of_get hget
    change { s with held := s.held.insert name held } = s
    rw [hinsert]
  | overflow hrecovery hover => exact Or.inr (Or.inr ⟨rfl, hrecovery, hover⟩)

/-- **A handle that is dropped** takes its share along. -/
theorem Balanced.release (h : s.Balanced) (name : ℕ) :
    Settled limits false [] 0 s ((release name).run s) := by
  have hrun : (Holdings.release name).run s = Holdings.release name s := rfl
  rw [Holdings.release] at hrun
  rw [hrun]
  rcases hget : s.held[name]? with _ | held
  · exact Or.inl ⟨rfl, h, fun _ c hc => absurd hc List.not_mem_nil⟩
  obtain ⟨usage, hdrop, hcount⟩ := run_drop (h.holds_le hget)
  dsimp only
  rw [hdrop]
  refine Or.inl ⟨rfl, ⟨fun c => ?_, fun id hid => ?_⟩, fun _ c hc => absurd hc List.not_mem_nil⟩
  · have htotal := SortedMap.total_erase (fun _ held => held.handle.holds c) s.held name
    rw [weightAt_of_get hget] at htotal
    have hc := hcount c
    rw [h.count, total] at hc
    change usage.get c = SortedMap.total (fun _ held => held.handle.holds c) (s.held.erase name)
    omega
  · exact h.fresh id (Std.ExtTreeMap.mem_of_mem_erase hid)

/-- A handle that is handed over holds what it held. -/
theorem Balanced.handOver (h : s.Balanced) (name : ℕ) :
    Settled limits false [] 0 s ((handOver name owner).run s) := by
  have hrun : (Holdings.handOver name owner).run s = Holdings.handOver name owner s := rfl
  rw [Holdings.handOver] at hrun
  rw [hrun]
  rcases hget : s.held[name]? with _ | held
  · exact Or.inl ⟨rfl, h, fun _ c hc => absurd hc List.not_mem_nil⟩
  · exact Or.inl ⟨rfl, h.change hget fun _ => rfl, fun _ c hc => absurd hc List.not_mem_nil⟩

/-- **One call**, of any kind. -/
theorem Balanced.perform (h : s.Balanced) (limits : Limits) (call : Call) :
    Settled limits call.recovers (call.counters s) call.bytes s
      ((perform limits call).run s) := by
  cases call with
  | transaction owner => exact h.acquire takes_transaction
  | snapshot owner bytes => exact h.acquire takes_snapshot
  | reservation owner => exact h.acquire takes_reservation
  | memory owner kind bytes recovery => exact h.acquire takes_memory
  | growDecoded id bytes recovery => exact h.onHandle (fun _ hle => grows_growDecoded hle) id
  | recover id bytes => exact h.onHandle (fun _ hle => grows_recover hle) id
  | grow id bytes => exact h.onHandle (fun _ hle => grows_grow hle) id
  | growMemory id bytes recovery => exact h.onHandle (fun _ hle => grows_growMemory hle) id
  | move id owner => exact h.handOver id
  | drop id => exact h.release id

/-- **Any calls**, from balanced holdings. -/
theorem Balanced.after (h : s.Balanced) {calls : List Call} {s' : Holdings}
    (hrun : after limits calls s = some s') : s'.Balanced := by
  induction calls generalizing s with
  | nil =>
    cases hrun
    exact h
  | cons call calls ih =>
    rw [Holdings.after] at hrun
    rcases h.perform limits call with ⟨hresult, hbalanced, -⟩ | ⟨e, hresult, hsame⟩ |
      ⟨hresult, -, -⟩
    · generalize (Holdings.perform limits call).run s = out at *
      obtain ⟨_, t⟩ := out
      obtain rfl : _ = Except.ok () := hresult
      exact ih hbalanced hrun
    · generalize (Holdings.perform limits call).run s = out at *
      obtain ⟨_, t⟩ := out
      obtain rfl : _ = Except.error (Failure.refused e) := hresult
      obtain rfl : t = s := hsame
      exact ih h hrun
    · generalize (Holdings.perform limits call).run s = out at *
      obtain ⟨_, t⟩ := out
      obtain rfl : _ = Except.error Failure.overflow := hresult
      cases hrun

end Balanced

/-- **The admission counters equal what is held.** However the calls of all threads come one
behind the other, each counter is the sum of what the live handles hold of it. Then no call but a
recovery that grows leaves the range of a counter, so no drop goes below zero; that one does so
only where the sum it would make is not a 64-bit number. A call that is refused changes no counter
and no handle, and behind one that is admitted the counters it has added to are within their
limits. -/
theorem counters_equal_what_is_held {limits : Limits} {calls : List Call} {s : Holdings}
    (hrun : after limits calls opened = some s) :
    (∀ counter, s.usage.get counter = s.total counter) ∧
      ∀ call r s', (perform limits call).run s = (r, s') →
        (call.recovers = false → r ≠ .error .overflow) ∧
        (r = .error .overflow →
          ∃ counter ∈ call.counters s, maxU64 < s.total counter + call.bytes) ∧
        (∀ e, r = .error (.refused e) → s' = s) ∧
        (r = .ok () → call.recovers = false →
          ∀ counter ∈ call.counters s, s'.usage.get counter ≤ bound limits counter) := by
  have hbalanced := Balanced.opened.after hrun
  refine ⟨hbalanced.count, fun call r s' hcall => ?_⟩
  have hsettled := hbalanced.perform limits call
  rw [hcall] at hsettled
  rcases hsettled with ⟨rfl, -, hbound⟩ | ⟨e, rfl, rfl⟩ | ⟨rfl, hrecovers, c, hc, hover⟩
  · refine ⟨?_, ?_, ?_, fun _ => hbound⟩
    · rintro - ⟨⟩
    · rintro ⟨⟩
    · rintro e ⟨⟩
  · refine ⟨?_, ?_, fun _ _ => rfl, ?_⟩
    · rintro - ⟨⟩
    · rintro ⟨⟩
    · rintro ⟨⟩
  · refine ⟨?_, fun _ => ⟨c, hc, ?_⟩, ?_, ?_⟩
    · intro hasked
      rw [hrecovers] at hasked
      cases hasked
    · rwa [← hbalanced.count]
    · rintro e ⟨⟩
    · rintro ⟨⟩

/-- A recovery, a transaction that is admitted, a growth that is refused, and a pin. -/
theorem counters_equal_what_is_held_mixed : ∃ s,
    after { Limits.default with maxResidentWriteBytes := 60 }
      [.reservation 1, .recover 0 50, .transaction 2, .reservation 2, .grow 2 8, .grow 2 8,
        .snapshot 3 4096, .move 0 3, .memory 3 .scratch 100 false, .drop 1] opened = some s ∧
      s.total .residentWriteBytes = 58 ∧ s.total .transactions = 0 ∧
      s.total .pinnedBytes = 4096 := by
  obtain ⟨s, hrun, hbytes, htransactions, hpinned⟩ : ∃ s,
      after { Limits.default with maxResidentWriteBytes := 60 }
        [.reservation 1, .recover 0 50, .transaction 2, .reservation 2, .grow 2 8, .grow 2 8,
          .snapshot 3 4096, .move 0 3, .memory 3 .scratch 100 false, .drop 1] opened = some s ∧
        s.usage.get .residentWriteBytes = 58 ∧ s.usage.get .transactions = 0 ∧
        s.usage.get .pinnedBytes = 4096 := ⟨_, rfl, rfl, rfl, rfl⟩
  have hcount := (counters_equal_what_is_held hrun).1
  refine ⟨s, hrun, ?_, ?_, ?_⟩
  · rw [← hcount, hbytes]
  · rw [← hcount, htransactions]
  · rw [← hcount, hpinned]

end Holdings

end EveDB.Store.Resources
