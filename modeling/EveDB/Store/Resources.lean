import EveDB.Error
import EveDB.Codec
import EveDB.Library.Guarded

/-!
# Admission

The limits of a database, and the counters that are checked against them (`resources.rs`,
`Pager::scratch` and `Pager::decoded`).

The counters belong to all connections of a database, so whoever reads one finds what the
others have left there. A transaction therefore runs in surroundings (`Env`) that give every
reading of a counter a value of its own, as they give every look at the clock a time and every
look at the poison flag an answer; nothing is assumed about them but that time does not go back
and that the flag, once raised, stays.

Reading storage asks for memory on the way. What it asks for is a `Request`, and a read is a
`Reading`: a guarded computation over such requests.
-/

namespace EveDB.Store

/-- Admission limits. -/
structure Limits where
  maxDecodedRecordBytes : ℕ
  maxTransactionDecodedBytes : ℕ
  maxResidentDecodedWriteBytes : ℕ
  maxReadMemoryBytes : ℕ
  maxScratchBytes : ℕ
  maxReadResultBytes : ℕ
  maxHistoryBatchEvents : ℕ
  maxHistoryBatchBytes : ℕ
  maxTransactions : ℕ
  maxSnapshots : ℕ
  maxPinnedBytes : ℕ
  maxTransactionOperations : ℕ
  maxTransactionBytes : ℕ
  maxResidentWriteBytes : ℕ
  maxQueuedCommits : ℕ
  maxQueuedCommitBytes : ℕ
  maxHistoryFiles : ℕ
  maxIndexPartitions : ℕ
  maxUncheckpointedWalBytes : ℕ

namespace Limits

/-- The limits a database opens with unless it is told others. -/
def default : Limits where
  maxDecodedRecordBytes := 64 * 1024 * 1024
  maxTransactionDecodedBytes := 256 * 1024 * 1024
  maxResidentDecodedWriteBytes := 1024 * 1024 * 1024
  maxReadMemoryBytes := 256 * 1024 * 1024
  maxScratchBytes := 128 * 1024 * 1024
  maxReadResultBytes := 64 * 1024 * 1024
  maxHistoryBatchEvents := 4096
  maxHistoryBatchBytes := 64 * 1024 * 1024
  maxTransactions := 1024
  maxSnapshots := 4096
  maxPinnedBytes := 8 * 1024 * 1024 * 1024
  maxTransactionOperations := 100000
  maxTransactionBytes := maxFrame
  maxResidentWriteBytes := 512 * 1024 * 1024
  maxQueuedCommits := 256
  maxQueuedCommitBytes := 128 * 1024 * 1024
  maxHistoryFiles := 4096
  maxIndexPartitions := 65536
  maxUncheckpointedWalBytes := 512 * 1024 * 1024

/-- Checks the limits against each other. -/
def validate (limits : Limits) : Result Unit :=
  if limits.maxDecodedRecordBytes = 0 ∨
      limits.maxTransactionDecodedBytes = 0 ∨
      limits.maxResidentDecodedWriteBytes < limits.maxTransactionDecodedBytes ∨
      limits.maxReadMemoryBytes = 0 ∨
      limits.maxScratchBytes = 0 ∨
      limits.maxReadResultBytes = 0 ∨
      limits.maxHistoryBatchEvents = 0 ∨
      limits.maxHistoryBatchBytes = 0 ∨
      limits.maxUncheckpointedWalBytes = 0 ∨
      limits.maxTransactions = 0 ∨
      limits.maxHistoryFiles = 0 ∨
      limits.maxIndexPartitions = 0 ∨
      limits.maxQueuedCommits = 0 ∨
      limits.maxQueuedCommitBytes < limits.maxTransactionBytes ∨
      limits.maxSnapshots = 0 ∨
      limits.maxTransactionOperations = 0 ∨
      limits.maxTransactionBytes < 8 ∨
      maxFrame < limits.maxTransactionBytes ∨
      limits.maxResidentWriteBytes < limits.maxTransactionBytes then
    .error (.invalid "invalid admission limits")
  else .ok ()

example : default.validate = .ok () := by decide

/-- Limits that validate admit no transaction that does not fit a frame. -/
theorem transactionBytes_of_validate {limits : Limits} (h : limits.validate = .ok ()) :
    8 ≤ limits.maxTransactionBytes ∧ limits.maxTransactionBytes ≤ maxFrame := by
  unfold validate at h
  split at h
  · cases h
  · next hc => omega

end Limits

/-- What all connections together hold. -/
structure ResourceUsage where
  decodedWriteBytes : ℕ
  readMemoryBytes : ℕ
  scratchBytes : ℕ
  transactions : ℕ
  residentWriteBytes : ℕ

/-- **The surroundings of a transaction**: what it finds each time it looks. -/
structure Env where
  limits : Limits
  /-- The database is being recovered (`Pager::recovering`). -/
  recovering : Bool
  usage : ℕ → ResourceUsage
  /-- A storage failure has closed the database. -/
  poisoned : ℕ → Bool
  now : ℕ → ℕ
  /-- The flag is never taken back. -/
  poisoned_mono : ∀ {i j}, i ≤ j → poisoned i = true → poisoned j = true
  /-- Time does not go back. -/
  now_mono : ∀ {i j}, i ≤ j → now i ≤ now j

/-- Surroundings in which nothing else goes on. -/
def Env.quiet (limits : Limits) (recovering : Bool) : Env where
  limits
  recovering
  usage _ := ⟨0, 0, 0, 0, 0⟩
  poisoned _ := false
  now _ := 0
  poisoned_mono _ h := h
  now_mono _ := le_rfl

/-- What a read asks admission for on its way. -/
inductive Request
  /-- A raw buffer (`Pager::scratch`). -/
  | scratch (bytes : ℕ)
  /-- Decoded read memory (`Resources::memory`). -/
  | memory (bytes : ℕ)
  /-- One decoded record (`Pager::decoded`). -/
  | decoded (bytes : ℕ)
  /-- Decoded memory on the account of a transaction (the `charge` of a load). -/
  | charge (bytes : ℕ)

/-- A read. -/
abbrev Reading (α : Type) := Guarded Request Error α

namespace Env

/-- What the `tick`-th look at the counters says about read memory. -/
def memory (env : Env) (tick : ℕ) (bytes : ℕ) : Result Unit :=
  if env.recovering then .ok ()
  else check "decoded read bytes"
    (env.usage tick).readMemoryBytes bytes env.limits.maxReadMemoryBytes

/-- What it says about a raw buffer. -/
def scratch (env : Env) (tick : ℕ) (bytes : ℕ) : Result Unit :=
  if env.recovering then .ok ()
  else check "scratch bytes" (env.usage tick).scratchBytes bytes env.limits.maxScratchBytes

/-- What it says about a decoded record. -/
def decoded (env : Env) (tick : ℕ) (bytes : ℕ) : Result Unit := do
  if env.recovering then .ok ()
  else check "decoded record bytes" 0 bytes env.limits.maxDecodedRecordBytes
  env.memory tick bytes

end Env

end EveDB.Store
