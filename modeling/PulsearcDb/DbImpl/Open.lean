import PulsearcDb.DbImpl.Background
import PulsearcDb.DbImpl.LsmReads
import PulsearcDb.DbImpl.Read
import PulsearcDb.DbImpl.SequentialCommit
import PulsearcDb.VersionSet.ManifestReplay

/-!
# Opening a database

`DBImplCore::open` (`db_impl/db_impl.rs`), without failures of the files. The manifest is replayed,
then the logs that it does not cover, in the order of their numbers and into one memtable. What they
held becomes a table at the level that `pick_level_for_memtable_output` chooses on the recovered
version, and a new log takes over.

An open may be interrupted when its table is installed and the new log is not. The next one replays
the same logs and makes a second table of the same entries. So a table may hold copies of what is in
the logs, and the levels are newest first only up to copies (`RecencyOrder`).
-/

namespace PulsearcDb

open Recency

/-- The files of a database: the manifests with `CURRENT`, the logs and the tables in the order of
`list_dir`, and the entries of the tables. -/
structure DbFiles where
  dir : Directory := {}
  logs : List (ℕ × Bytes) := []
  tables : List ℕ := []
  contents : ℕ → List Entry := fun _ => []

/-- The fields of `Options` that `open` looks at. -/
structure OpenOptions where
  createIfMissing : Bool := true
  errorIfExists : Bool := false
  paranoidChecks : Bool := false

/-- `DBImplCore` right after `open`, with its files. -/
structure OpenedDb (c : Comparator) where
  vs : VersionSet
  mem : MemTable c
  logFileNumber : ℕ
  files : DbFiles

namespace DbFiles

/-- `new_writable_file` for a log: an old file of the name is emptied. -/
def createLog (files : DbFiles) (number : ℕ) : DbFiles :=
  { files with logs := files.logs.filter (·.1 ≠ number) ++ [(number, [])] }

/-- `delete_obsolete_logs`. -/
def deleteObsoleteLogs (files : DbFiles) (logFileNumber : ℕ) : DbFiles :=
  { files with logs := files.logs.filter fun log => logFileNumber ≤ log.1 }

/-- `delete_obsolete_manifests`. -/
def deleteObsoleteManifests (files : DbFiles) (live : ℕ) : DbFiles :=
  { files with dir := { files.dir with
      manifests := fun number => if number = live then files.dir.manifests number else none } }

/-- A table file is written, or replaced. -/
def writeTable (files : DbFiles) (table : TableOutput) : DbFiles :=
  { files with
    tables := files.tables.filter (· ≠ table.number) ++ [table.number]
    contents := Function.update files.contents table.number table.entries }

/-- The logs that the manifest does not cover, in the order of their numbers. -/
def logsToReplay (files : DbFiles) (vs : VersionSet) : List (ℕ × Bytes) :=
  (files.logs.filter fun log => vs.logNumber ≤ log.1 || log.1 == vs.prevLogNumber).insertionSort
    fun a b => a.1 ≤ b.1

end DbFiles

/-- The result of `log_and_apply`, with the files. -/
def logAndApplyFiles (c : Comparator) (vs : VersionSet) (files : DbFiles) (edit : VersionEdit) :
    Result (VersionSet × DbFiles) :=
  match (⟨vs, files.dir⟩ : MetaState).logAndApply c {} edit with
  | (.error e, _) => .error e
  | (.ok _, s) => .ok (s.vs, { files with dir := s.dir })

/-- The comparator-name verification. -/
def checkComparatorName (c : Comparator) (vs : VersionSet) : Result Unit :=
  match vs.recoveredComparatorName with
  | none => .ok ()
  | some stored =>
    if stored = c.name.toUTF8.toList then .ok ()
    else .error (Status.invalidArgument "comparator does not match value in the existing DB")

/-- The loop over the logs. -/
def recoverLogs (c : Comparator) (paranoid : Bool) (logs : List (ℕ × Bytes)) :
    Result (LogRecovery c) :=
  match ({} : LogRecovery c).recoverLogFiles paranoid (logs.map Prod.snd) with
  | (.error e, _) => .error e
  | (.ok _, recovery) => .ok recovery

/-- The table of the recovered entries. -/
def recoveredTable (vs : VersionSet) (entries : List Entry) (first last : Entry) : TableOutput :=
  { number := vs.nextFileNumber, smallest := first.ik, largest := last.ik, entries }

/-- The edit with the table of the recovered entries. -/
def recoveredEdit (c : Comparator) (sizing : Sizing) (vs : VersionSet) (entries : List Entry)
    (first last : Entry) : VersionEdit :=
  { newFiles := [⟨vs.current.pickLevelForMemtableOutput c first.key last.key,
      (recoveredTable vs entries first last).metadata sizing⟩] }

/-- The recovered entries become a table, and the memtable is a new one. -/
def flushRecovered (c : Comparator) (sizing : Sizing) (vs : VersionSet) (files : DbFiles)
    (mem : MemTable c) : Result (VersionSet × DbFiles × MemTable c) :=
  match mem.entries.head?, mem.entries.getLast? with
  | some first, some last => do
    let (vs', files') ← logAndApplyFiles c { vs with nextFileNumber := vs.nextFileNumber + 1 }
      (files.writeTable (recoveredTable vs mem.entries first last))
      (recoveredEdit c sizing vs mem.entries first last)
    return (vs', files', {})
  | _, _ => return (vs, files, mem)

/-- The part of `open` for a directory with a database. -/
def recoverDb (c : Comparator) (sizing : Sizing) (options : OpenOptions) (files : DbFiles) :
    Result (VersionSet × DbFiles × MemTable c) := do
  let vs ← VersionSet.recover c files.dir
  checkComparatorName c vs
  let recovery ← recoverLogs c options.paranoidChecks (files.logsToReplay vs)
  flushRecovered c sizing { vs with lastSequence := max vs.lastSequence recovery.maxSequence } files
    recovery.mem

/-- The edit with the number of the new log. -/
def newLogEdit (c : Comparator) (logFileNumber : ℕ) : VersionEdit :=
  { comparator := some c.name.toUTF8.toList, logNumber := some logFileNumber }

/-- The end of `open`: a new log, and the obsolete files are deleted. -/
def startLog (c : Comparator) (vs : VersionSet) (files : DbFiles) (mem : MemTable c) :
    Result (OpenedDb c) := do
  let logFileNumber := vs.nextFileNumber
  let (vs', files') ← logAndApplyFiles c { vs with nextFileNumber := vs.nextFileNumber + 1 } files
    (newLogEdit c logFileNumber)
  return {
    vs := vs'
    mem
    logFileNumber
    files := ((files'.createLog logFileNumber).deleteObsoleteLogs
      logFileNumber).deleteObsoleteManifests vs'.manifestFileNumber }

/-- `DBImplCore::open`. -/
def openDb (c : Comparator) (sizing : Sizing) (options : OpenOptions) (files : DbFiles) :
    Result (OpenedDb c) :=
  if files.dir.current.isSome && options.errorIfExists then
    .error (Status.invalidArgument "DB exists but error_if_exists is set")
  else if !files.dir.current.isSome && !options.createIfMissing then
    .error (Status.notFound "DB missing and create_if_missing is false")
  else if files.dir.current.isSome then do
    let (vs, files, mem) ← recoverDb c sizing options files
    startLog c vs files mem
  else startLog c {} files {}

/-- `get` on a database that was just opened. -/
def OpenedDb.get (db : OpenedDb bytewiseComparator) (key : Bytes) : Result (Option Bytes) :=
  ReadView.get { mem := db.mem, version := db.vs.current, lastSequence := db.vs.lastSequence }
    (lookupIn db.files.contents) none key

/-! ### What the parts of `open` do -/

variable {vs vs' : VersionSet} {files files' : DbFiles}

theorem isSome_current_of_recover {c : Comparator} {dir : Directory}
    (h : VersionSet.recover c dir = .ok vs) : dir.current.isSome := by
  rw [VersionSet.recover] at h
  split at h
  · cases h
  · rename_i hcur
    rw [hcur]
    rfl

/-- What a successful `log_and_apply` has made of the version set. -/
structure Applied (c : Comparator) (vs : VersionSet) (edit : VersionEdit) (vs' : VersionSet) :
    Prop where
  current : vs'.current = vs.current.edited c edit
  logNumber : vs'.logNumber = edit.logNumber.getD vs.logNumber
  prevLogNumber : vs'.prevLogNumber = edit.prevLogNumber.getD vs.prevLogNumber
  lastSequence : vs'.lastSequence = vs.lastSequence
  nextFileNumber : vs'.nextFileNumber = vs.nextFileNumber + (if vs.manifest.isSome then 0 else 1)
  manifest : vs'.manifest.isSome

variable {c : Comparator}

theorem logAndApplyFiles_eq (c : Comparator) (vs : VersionSet) (files : DbFiles)
    (edit : VersionEdit) :
    ∃ vs' dir, logAndApplyFiles c vs files edit = .ok (vs', { files with dir }) ∧
      Applied c vs edit vs' := by
  obtain ⟨s', hs', hinst, hnext, hman⟩ := MetaState.logAndApply_of_no_fault ⟨vs, files.dir⟩ c edit
  refine ⟨s'.vs, s'.dir, by rw [logAndApplyFiles, hs'], ?_⟩
  exact ⟨hinst.current, hinst.logNumber, hinst.prevLogNumber, hinst.lastSequence, hnext, hman⟩

theorem applied_of_ok {edit : VersionEdit}
    (h : logAndApplyFiles c vs files edit = .ok (vs', files')) :
    ∃ dir, files' = { files with dir } ∧ Applied c vs edit vs' := by
  obtain ⟨vs'', dir, heq, happ⟩ := logAndApplyFiles_eq c vs files edit
  obtain ⟨rfl, rfl⟩ := Prod.mk.inj (Except.ok.inj (heq.symm.trans h))
  exact ⟨dir, rfl, happ⟩

/-- Nothing was in the logs, or there is a table of it. -/
theorem flushRecovered_cases (c : Comparator) (sizing : Sizing) (vs : VersionSet) (files : DbFiles)
    (mem : MemTable c) :
    (mem.entries = [] ∧ flushRecovered c sizing vs files mem = .ok (vs, files, mem)) ∨
      ∃ first last vs' files', mem.entries.head? = some first ∧ mem.entries.getLast? = some last ∧
        flushRecovered c sizing vs files mem = .ok (vs', files', {}) ∧
        logAndApplyFiles c { vs with nextFileNumber := vs.nextFileNumber + 1 }
          (files.writeTable (recoveredTable vs mem.entries first last))
          (recoveredEdit c sizing vs mem.entries first last) = .ok (vs', files') := by
  rcases hfst : mem.entries.head? with _ | first
  · exact .inl ⟨List.head?_eq_none_iff.mp hfst, by rw [flushRecovered, hfst]; rfl⟩
  · rcases hlast : mem.entries.getLast? with _ | last
    · rw [List.getLast?_eq_none_iff.mp hlast] at hfst
      cases hfst
    · obtain ⟨vs', dir, heq, -⟩ := logAndApplyFiles_eq c
        { vs with nextFileNumber := vs.nextFileNumber + 1 }
        (files.writeTable (recoveredTable vs mem.entries first last))
        (recoveredEdit c sizing vs mem.entries first last)
      refine .inr ⟨first, last, vs', _, rfl, rfl, ?_, heq⟩
      simp only [flushRecovered, hfst, hlast, heq, ok_bind]
      rfl

theorem startLog_of_ok
    (h : logAndApplyFiles c { vs with nextFileNumber := vs.nextFileNumber + 1 } files
      (newLogEdit c vs.nextFileNumber) = .ok (vs', files')) (mem : MemTable c) :
    startLog c vs files mem = .ok
      { vs := vs'
        mem
        logFileNumber := vs.nextFileNumber
        files := ((files'.createLog vs.nextFileNumber).deleteObsoleteLogs
          vs.nextFileNumber).deleteObsoleteManifests vs'.manifestFileNumber } := by
  simp only [startLog, h, ok_bind]
  rfl

/-! ### What the manifest records of an open -/

/-- The manifest that is open ends with the record of an edit. -/
def LastRecord (s : MetaState) (e : VersionEdit) : Prop :=
  ∃ m edits, Logged s m (edits ++ [e]) ∧ m.file.buffer = []

/-- The numbers of a recovered version set are those of the last record. -/
theorem LastRecord.recover {s : MetaState} {e : VersionEdit} (h : LastRecord s e)
    (hnext : e.nextFileNumber.isSome) (hlast : e.lastSequence.isSome) :
    ∃ st : RecoverState, VersionSet.recover c s.dir =
      .ok { (st.apply e).vs with current := (st.apply e).builder.saveTo c, manifest := none } := by
  obtain ⟨m, edits, hlog, hbuf⟩ := h
  refine ⟨edits.foldl RecoverState.apply { vs := {}, builder := { base := {} } }, ?_⟩
  rw [hlog.recover hbuf, List.foldl_concat]
  exact if_pos (by simp [RecoverState.apply, hnext, hlast])

/-- A call on a manifest, or one that starts it, records its edit. -/
theorem LastRecord.of_logAndApplyFiles {edit : VersionEdit}
    (hok : logAndApplyFiles c vs files edit = .ok (vs', files')) (hfits : (vs.stash edit).Encodable)
    (hman : (vs.manifest = none ∧
        (((⟨vs, files.dir⟩ : MetaState).beforeSnapshot edit).vs.snapshotEdit c).Encodable) ∨
      ∃ e, LastRecord ⟨vs, files.dir⟩ e) :
    LastRecord ⟨vs', files'.dir⟩ (vs.stash edit) := by
  unfold logAndApplyFiles at hok
  split at hok
  · cases hok
  · rename_i s hs
    obtain ⟨rfl, rfl⟩ := Prod.mk.inj (Except.ok.inj hok)
    rcases hman with ⟨hnone, hsnap⟩ | ⟨e, m, edits, hlog, -⟩
    · exact ⟨_, [_], (MetaState.logAndApply_new_ok hnone hsnap hfits hs).1, rfl⟩
    · exact ⟨_, _, (MetaState.logAndApply_ok hlog hfits hs).1, rfl⟩

/-- Deleting the other manifests does not matter. -/
theorem LastRecord.deleteObsoleteManifests {e : VersionEdit} (h : LastRecord ⟨vs, files.dir⟩ e) :
    LastRecord ⟨vs, (files.deleteObsoleteManifests vs.manifestFileNumber).dir⟩ e := by
  obtain ⟨m, edits, hlog, hbuf⟩ := h
  exact ⟨m, edits, ⟨hlog.toHoldsEdits, hlog.manifest, (if_pos rfl).trans hlog.disk,
    hlog.current⟩, hbuf⟩

end PulsearcDb
