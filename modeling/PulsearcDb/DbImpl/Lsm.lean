import PulsearcDb.DbImpl.CompactionWork

/-!
# The tree of tables

The life of the tables of a database (`db_impl/db_impl.rs`): writes fill the memtable, a full
memtable becomes the immutable one, a flush makes a table of it at the level that
`pick_level_for_memtable_output` chooses, and compactions move or merge tables into the next level.
The background worker and the manual compactions exclude each other, so the version does not change
between the picking of a compaction and the installation of its result. Other threads may write,
take snapshots and take file numbers meanwhile; the numbers are the gaps of an action.
-/

namespace PulsearcDb

/-- The version that `log_and_apply` installs. -/
def Version.edited (c : Comparator) (v : Version) (edit : VersionEdit) : Version :=
  (VersionBuilder.apply { base := v } edit).saveTo c

/-- The tables of a database: what compactions read and change. -/
structure Tables where
  version : Version := {}
  /-- The entries of the table files, by number. -/
  contents : ℕ → List Entry := fun _ => []
  nextFileNumber : ℕ := 2
  compactPointer : ℕ → Bytes := fun _ => []

/-- The tables of a database under a comparator, with what flushes and compactions read. -/
structure Lsm (c : Comparator) extends Tables where
  mem : MemTable c := {}
  imm : Option (MemTable c) := none
  lastSequence : ℕ := 0
  snapshots : List ℕ := []

namespace Lsm

/-- How a compaction is picked: by the background worker, with the file that used up its seek
allowance, or by hand. -/
inductive Pick
  | background (fileToCompact : Option (ℕ × ℕ))
  | manual (level : ℕ) (first last : Option Bytes)

/-- What happens to the tree. The gaps of a compaction are the file numbers that others take between
two of its tables. -/
inductive Action
  | write (valueType : ValueType) (key value : Bytes)
  | rotate
  | flush
  | snapshot
  | release (s : ℕ)
  | allocate
  | compact (pick : Pick) (gaps : ℕ → ℕ) (succeeds : Bool)

/-- The files that are written. -/
def writeTables (contents : ℕ → List Entry) (tables : List TableOutput) : ℕ → List Entry :=
  tables.foldl (fun contents t => Function.update contents t.number t.entries) contents

/-- The edit of a trivial move: the only input goes to the next level as it is. -/
def trivialEdit (x : Compaction) (f : FileMetaData) : VersionEdit :=
  { deletedFiles := [⟨x.level, f.number⟩], newFiles := [⟨x.level + 1, f⟩] }

/-- The edit of a merge: the outputs replace the inputs of both levels. -/
def mergeEdit (sizing : Sizing) (x : Compaction) (outputs : List TableOutput) : VersionEdit :=
  { compactPointers := [⟨x.level, x.compactPointer⟩]
    deletedFiles := x.inputs0.map (fun f => ⟨x.level, f.number⟩) ++
      x.inputs1.map fun f => ⟨x.level + 1, f.number⟩
    newFiles := outputs.map fun t => ⟨x.level + 1, t.metadata sizing⟩ }

end Lsm

namespace Tables

open Lsm

/-- The merge of the inputs of a compaction. -/
def merge (sizing : Sizing) (c : Comparator) (gaps : ℕ → ℕ) (smallestSnapshot : ℕ) (t : Tables)
    (x : Compaction) : MergeState :=
  mergeEntries sizing gaps (x.isBaseLevelForKey c) smallestSnapshot t.nextFileNumber
    (x.entries c t.contents)

/-- `do_compaction_work_async`, when no operation fails. -/
def doCompactionWork (sizing : Sizing) (c : Comparator) (gaps : ℕ → ℕ) (smallestSnapshot : ℕ)
    (t : Tables) (x : Compaction) : Tables :=
  if x.isTrivialMove then
    match x.inputs0 with
    | [] => t
    | f :: _ => { t with version := t.version.edited c (trivialEdit x f) }
  else
    let merged := t.merge sizing c gaps smallestSnapshot x
    { t with
      version := t.version.edited c (mergeEdit sizing x merged.tables)
      contents := writeTables t.contents merged.tables
      nextFileNumber := merged.nextFileNumber }

/-- Picking a compaction moves the compact pointer of its level: `setup_other_inputs`. -/
def movePointer (t : Tables) (x : Compaction) : Tables :=
  { t with compactPointer := Function.update t.compactPointer x.level x.compactPointer }

end Tables

namespace Lsm

/-- The empty tree under the order of the bytes. -/
abbrev empty : Lsm bytewiseComparator := {}

variable {c : Comparator} (sizing : Sizing)

/-- `smallest_snapshot_sequence`. -/
def smallestSnapshotSequence (st : Lsm c) : ℕ := st.snapshots.min?.getD st.lastSequence

/-- The compaction that `pick_compaction` or `pick_manual_compaction` chooses. -/
def pickedBy (st : Lsm c) : Pick → Option Compaction
  | .background fileToCompact => st.version.pickCompaction c fileToCompact st.compactPointer
  | .manual level first last => st.version.pickManualCompaction c level first last

/-- The table of a flush. -/
def flushTable (st : Lsm c) (m : MemTable c) (first last : Entry) : TableOutput :=
  { number := st.nextFileNumber, smallest := first.ik, largest := last.ik, entries := m.entries }

/-- The level of the table of a flush. -/
def flushLevel (st : Lsm c) (first last : Entry) : ℕ :=
  st.version.pickLevelForMemtableOutput c first.key last.key

/-- The edit of a flush: one new file. -/
def flushEdit (st : Lsm c) (m : MemTable c) (first last : Entry) : VersionEdit :=
  { newFiles := [⟨st.flushLevel first last, (st.flushTable m first last).metadata sizing⟩] }

/-- `compact_memtable_async`. An empty memtable is given up without a table. -/
def flush (st : Lsm c) : Lsm c :=
  match st.imm with
  | none => st
  | some m =>
    match m.entries.head?, m.entries.getLast? with
    | some first, some last =>
      { st with
        version := st.version.edited c (st.flushEdit sizing m first last)
        contents := writeTables st.contents [st.flushTable m first last]
        nextFileNumber := st.nextFileNumber + 1
        imm := none }
    | _, _ => { st with imm := none }

/-- The merge of the inputs of a compaction, under the snapshots of the database. -/
def merge (gaps : ℕ → ℕ) (st : Lsm c) (x : Compaction) : MergeState :=
  st.toTables.merge sizing c gaps st.smallestSnapshotSequence x

/-- `do_compaction_work_async`, under the snapshots of the database. -/
def doCompactionWork (gaps : ℕ → ℕ) (st : Lsm c) (x : Compaction) : Lsm c :=
  { st with
    toTables := st.toTables.doCompactionWork sizing c gaps st.smallestSnapshotSequence x }

/-- The tree after the picking of a compaction. -/
def movePointer (st : Lsm c) (x : Compaction) : Lsm c :=
  { st with toTables := st.toTables.movePointer x }

/-- A compaction is picked and carried out; when a read or a write fails, nothing is installed. -/
def compact (st : Lsm c) (pick : Pick) (gaps : ℕ → ℕ) (succeeds : Bool) : Lsm c :=
  match st.pickedBy pick with
  | none => st
  | some x =>
    if succeeds then (st.movePointer x).doCompactionWork sizing gaps x else st.movePointer x

/-- One action. A write that finds no sequence number left is not made. -/
def step (st : Lsm c) : Action → Lsm c
  | .write valueType key value =>
    if st.lastSequence < maxSequenceNumber then
      { st with
        mem := (st.mem.add (st.lastSequence + 1) valueType key value).2
        lastSequence := st.lastSequence + 1 }
    else st
  | .rotate => if st.imm.isNone then { st with imm := some st.mem, mem := {} } else st
  | .flush => st.flush sizing
  | .snapshot => { st with snapshots := st.snapshots ++ [st.lastSequence] }
  | .release s => { st with snapshots := st.snapshots.erase s }
  | .allocate => { st with nextFileNumber := st.nextFileNumber + 1 }
  | .compact pick gaps succeeds => st.compact sizing pick gaps succeeds

end Lsm
end PulsearcDb
