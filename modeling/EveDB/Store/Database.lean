import EveDB.Store.Staging

/-!
# The database handle

What a database keeps in memory (`Database`), what a transaction hands over to be committed
(`Prepared`), and how a batch is published once its frame is in the log
(`Prepared.publishState`): its entities are sealed and laid over the view, its catalog replaces
the one of the view, and the view moves on to its sequence.
-/

namespace EveDB.Store

/-- **A batch that is ready to commit.** -/
structure Prepared where
  /-- It holds a transaction permit; the batches of a recovery do not. -/
  permit : Bool
  deadline : Option ℕ
  reservation : Reservation
  baseSequence : ℕ
  rootGeneration : ℕ
  catalog : Catalog
  staged : SortedMap (ℕ × ℕ) EntityData
  operations : List Operation

/-- A transaction gives up what it has staged. -/
def Staging.prepare (s : Staging) (deadline : Option ℕ) : Prepared where
  permit := s.permit
  deadline
  reservation := s.reservation
  baseSequence := s.base.lsn
  rootGeneration := s.base.root.manifest.generation
  catalog := s.catalog
  staged := s.staged
  operations := s.operations

/-- **A database.** -/
structure Database where
  /-- The active segment of the log. -/
  wal : Bytes
  /-- The bytes of the log behind the checkpoint. -/
  walBytes : ℕ
  /-- Commits arrive in groups, and checkpoints are taken in the background. -/
  sharedMode : Bool
  /-- What has been committed since a running checkpoint was captured. -/
  checkpointTail : Option (SortedMap (ℕ × ℕ) EntityData)
  state : ReadState
  /-- The view that readers begin with. -/
  published : ReadState
  /-- A storage failure has closed the database. -/
  poisoned : Bool
  options : Options

namespace Prepared

/-- The keys a batch has staged. -/
def keys (batch : Prepared) : List (ℕ × ℕ) := batch.staged.toList.map Prod.fst

/-- Whether one of its operations defines a table. -/
def changesCatalog (batch : Prepared) : Bool :=
  batch.operations.any fun operation => operation.entityKey.isNone

/-- Whether it has no operation. -/
def isEmpty (batch : Prepared) : Bool := batch.operations.isEmpty

/-- Lays staged entities over others, the events of the transaction sealed. -/
def sealOver (staged overlay : SortedMap (ℕ × ℕ) EntityData) : SortedMap (ℕ × ℕ) EntityData :=
  overlay.insertMany (staged.toList.map fun (key, data) => (key, data.sealEvents))

/-- The view behind a batch that is committed under a sequence. -/
def publishView (batch : Prepared) (lsn : ℕ) (state : ReadState) : ReadState :=
  { state with catalog := batch.catalog, overlay := sealOver batch.staged state.overlay, lsn }

/-- **Makes a batch the state of the database**, under a sequence. -/
def publishState (batch : Prepared) (lsn : ℕ) (db : Database) : Database :=
  { db with
    checkpointTail := db.checkpointTail.map (sealOver batch.staged)
    state := batch.publishView lsn db.state }

end Prepared

end EveDB.Store
