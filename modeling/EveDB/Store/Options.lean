import EveDB.Store.Resources

/-!
# Options

What a database is opened with, and the checks its options have to pass (`Options`, `Timeouts`,
`GroupCommit`). Durations are nanoseconds and a ratio is a double given by its bits.
-/

namespace EveDB.Store

/-- The instant a duration after `now`, if it can be expressed. -/
def deadline (now duration : ℕ) : Result ℕ :=
  if duration = 0 then .error (.invalid "timeouts must be positive")
  else if 2 ^ 63 * 10 ^ 9 ≤ now + duration then .error (.invalid "timeout overflow")
  else .ok (now + duration)

/-- A deadline has passed. -/
def expired (deadline : Option ℕ) (now : ℕ) : Bool := deadline.any fun last => last ≤ now

/-- Upper bounds for the time things may take. -/
structure Timeouts where
  transaction : ℕ
  idleTransaction : ℕ
  snapshot : ℕ
  operation : ℕ
  commitQueue : ℕ
  reapInterval : ℕ

/-- Checks the timeouts. -/
def Timeouts.validate (timeouts : Timeouts) (now : ℕ) : Result Unit :=
  [timeouts.transaction, timeouts.idleTransaction, timeouts.snapshot, timeouts.operation,
    timeouts.commitQueue, timeouts.reapInterval].forM fun value => do
      let _ ← deadline now value

/-- Limits of one shared flush. -/
structure GroupCommit where
  maxTransactions : ℕ
  maxBytes : ℕ
  delay : ℕ

/-- Checks the limits of a flush. -/
def GroupCommit.validate (group : GroupCommit) : Result Unit :=
  if group.maxTransactions = 0 ∨ group.maxBytes = 0 ∨ 10 ^ 9 < group.delay then
    .error (.invalid "invalid group commit bounds (delay must be at most one second)")
  else .ok ()

/-- What a database is opened with. -/
structure Options where
  groupCommit : GroupCommit
  timeouts : Timeouts
  limits : Limits
  checkpointBytes : ℕ
  historySegmentBytes : ℕ
  /-- A snapshot every so many entity versions; zero for none. -/
  snapshotInterval : ℕ
  /-- How many events of an entity are retained; all of them without a number. -/
  retainEvents : Option ℕ
  compressHistory : Bool
  cacheBytes : ℕ
  maxOpenFiles : ℕ
  compactLiveRatio : UInt64
  maxGenerations : ℕ
  collectEntities : ℕ

/-- Whether the bits of a double are those of a number from zero to one. -/
def isRatio (bits : UInt64) : Bool := bits ≤ 0x3ff0000000000000 || bits = 0x8000000000000000

/-- Checks the options, in the order in which opening a database does. -/
def Options.validate (options : Options) (now : ℕ) : Result Unit := do
  options.limits.validate
  options.timeouts.validate now
  options.groupCommit.validate
  if options.checkpointBytes < 4096 ∨ options.historySegmentBytes < 4096 then
    .error (.invalid "checkpoint and segment targets must be at least 4096 bytes")
  else if ¬ isRatio options.compactLiveRatio then
    .error (.invalid "the compaction ratio must lie between 0.0 and 1.0")
  else if options.maxGenerations < 2 ∨ 256 < options.maxGenerations then
    .error (.invalid "a manifest references between 2 and 256 generations")
  else .ok ()

/-- The options a database opens with unless it is told others. -/
def Options.default : Options where
  groupCommit := { maxTransactions := 64, maxBytes := 4 * 1024 * 1024, delay := 0 }
  timeouts :=
    { transaction := 60 * 10 ^ 9, idleTransaction := 30 * 10 ^ 9, snapshot := 300 * 10 ^ 9,
      operation := 30 * 10 ^ 9, commitQueue := 5 * 10 ^ 9, reapInterval := 50 * 10 ^ 6 }
  limits := Limits.default
  checkpointBytes := 8 * 1024 * 1024
  historySegmentBytes := 8 * 1024 * 1024
  snapshotInterval := 32
  retainEvents := none
  compressHistory := true
  cacheBytes := 64 * 1024 * 1024
  maxOpenFiles := 256
  compactLiveRatio := 0x3fe0000000000000
  maxGenerations := 8
  collectEntities := 8192

example : Options.default.validate 0 = .ok () := by decide

end EveDB.Store
