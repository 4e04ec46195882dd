import EveDB.Builder.Table
import EveDB.Store.Maintenance

/-!
# Building a checkpoint

The whole of `CheckpointJob::build` (`database.rs`): the pass over the tables (`Writer.build`) with
table writers that write files (`tableWriter`), and the manifest that is put together of what stays
of the old one and what the tables add (`Store.CheckpointJob.build`).
-/

namespace EveDB

open Std Store

/-- What a build has of the next manifest, and what it has written. -/
structure Progress where
  files : List FileInfo
  partitions : SortedMap Route Partition
  historyGenerations : BTreeMap ℕ
  written : List (FileId × Bytes)
  /-- The table that is being written. -/
  table : Option FullTableWriter

namespace Progress

variable (p : Progress)

/-- Works on the table that is being written. -/
def onTable (step : FullTableWriter → Reading FullTableWriter) : Reading Progress :=
  match p.table with
  | none => return p
  | some w => do return { p with table := some (← step w) }

/-- Begins a table. -/
def begin (disk : Disk) (options : TableOptions) (maxIndexPartitions table : ℕ)
    (rewriteIndexes : Bool) : Result Progress := do
  let w ← FullTableWriter.create disk options table (maxIndexPartitions - p.partitions.size)
    rewriteIndexes
  return { p with table := some w }

/-- Adds what a table came to. -/
def add (output : TableOutput) : Progress where
  files := p.files ++ output.files
  partitions := p.partitions.insertMany output.partitions.toList
  historyGenerations := p.historyGenerations.insertMany output.historyGenerations.toList
  written := p.written ++ output.written
  table := none

/-- Ends a table. -/
def finish (storage : Storage) : Result (ℕ × Progress) :=
  match p.table with
  | none => .ok (0, p)
  | some w => do
    let output ← w.finish storage
    return (output.entities, p.add output)

end Progress

/-- **What the tables of a checkpoint are written with.** -/
def tableWriter (disk : Disk) (storage : Storage) (options : TableOptions)
    (maxIndexPartitions : ℕ) : Writer Progress where
  create table rewriteIndexes p :=
    Guarded.lift (p.begin disk options maxIndexPartitions table rewriteIndexes)
  carryPartition _ root route slots p := p.onTable fun w =>
    match root.manifest.partitions[route]? with
    | none => return w
    | some part =>
      Guarded.lift (w.carryPartition disk root.manifest slots primaryIndex (route, part))
  carryPartitionHistory _ root lower upper slots p := p.onTable fun w =>
    Guarded.lift (w.carryPartitionHistory disk root.manifest lower upper slots)
  carry _ root id value p := p.onTable fun w => w.carry disk storage root id value
  append _ id data p := p.onTable fun w => w.append disk storage id data
  finish _ p := Guarded.lift (p.finish storage)

/-- The records of the generations that stay. -/
def Root.keptFiles (root : Root) (absorb : SortedSet ℕ) : List FileInfo :=
  root.files.filter fun info => (info.kind = 0 ∨ info.kind = 1) ∧ ¬ absorb.contains info.generation

namespace Store.CheckpointJob

variable (job : CheckpointJob)

/-- What its table writers are told, with the slot of the new generation. -/
def tableOptions (slot : ℕ) : TableOptions where
  generation := job.generation
  slot
  lsn := job.state.lsn
  segmentLimit := job.options.historySegmentBytes
  compress := job.options.compressHistory
  rewriteHistory := job.rewriteHistory

/-- What a build begins with: the records that stay. -/
def start : Progress where
  files := job.state.root.manifest.keptFiles (Root.absorbed job.plan)
  partitions := ∅
  historyGenerations := ∅
  written := []
  table := none

/-- The manifest of a build. -/
def manifest (built : BuiltCheckpoint Progress) : Root where
  generation := job.generation
  lsn := job.state.lsn
  catalog := job.state.catalog
  generations := built.generations
  files := built.pass.writer.files
  partitions := built.pass.writer.partitions
  historyGenerations := built.pass.writer.historyGenerations
  historyCompacted := job.rewriteHistory ||
    (job.state.root.manifest.historyCompacted && job.state.overlay.isEmpty)
  occupancy := built.pass.occupancy

/-- The pass over the tables. -/
def pass (storage : Storage) (disk : Disk) : Reading (BuiltCheckpoint Progress) := do
  let (generations, _) ← Guarded.lift (job.state.root.manifest.rebuildSlots
    (Root.absorbed job.plan) job.generation job.state.lsn)
  let w := tableWriter disk storage (job.tableOptions (generations.length - 1))
    job.options.limits.maxIndexPartitions
  w.build job.state job.plan job.generation job.start

/-- **Builds a checkpoint**: its manifest, and the directory with the files that were written. -/
def build (storage : Storage) (disk : Disk) (failure : Option String) :
    Reading (Checkpoint × Disk) := do
  let built ← job.pass storage disk
  let written := disk.write built.pass.writer.written
  let root ← Guarded.lift (job.finish failure (.ofDisk written (job.manifest built)))
  return (root, written)

end Store.CheckpointJob

end EveDB
