import PulsearcDb.DbImpl.OpenReads
import PulsearcDb.VersionSet.ManifestFaults

/-!
# Logs over crashes and reopens

The numbers of the logs and of the manifest over a whole run of a database (`db_impl/db_impl.rs`):
writes, memtable rotations, flushes, file numbers taken by compactions, their installation, crashes
and opens. Of the manifest only the numbers of its last record matter, and of the tables only which
entries were ever put into one.

File numbers are handed out in memory and the counter is written down with the next edit. An `open`
starts from the counter that was written down last, whatever logs it finds: its table and its
manifest take the first two numbers and its log the third one, or the first one when there is
nothing to replay. A log that was created under a larger number is replayed and then stays, and the
next open replays it again.
-/

namespace PulsearcDb

open List
namespace Reopen

/-- What a restart finds: the numbers in the manifest, the logs, and everything that was ever put
into a table. -/
structure Disk where
  nextFileNumber : ℕ := 2
  logNumber : ℕ := 0
  lastSequence : ℕ := 0
  wals : List Wal := []
  tables : List Entry := []

/-- The running database. -/
structure Process where
  nextFileNumber : ℕ
  logFileNumber : ℕ
  lastSequence : ℕ
  mem : List Entry := []
  imm : Option (List Entry) := none

/-- The disk, and a process if the database is open. -/
structure Db where
  disk : Disk := {}
  process : Option Process := none

/-- What a process does, and the crash that ends it. -/
inductive Action
  | openDb
  | write (batch : WriteBatch)
  | rotate
  | flush
  | allocate
  | install
  | crash

/-- `new_writable_file` for a log. -/
def createLog (wals : List Wal) (number : ℕ) : List Wal :=
  wals.filter (·.number ≠ number) ++ [⟨number, []⟩]

/-- `delete_obsolete_logs`. -/
def deleteObsoleteLogs (wals : List Wal) (logFileNumber : ℕ) : List Wal :=
  wals.filter fun w => logFileNumber ≤ w.number

namespace Disk

/-- The logs that an open replays; `prev_log_number` is always zero. -/
def live (d : Disk) : List Wal := d.wals.filter fun w => d.logNumber ≤ w.number || w.number == 0

/-- The entries that an open replays. -/
def recovered (d : Disk) : List Entry := walEntries d.live

/-- The last sequence number after the replay. -/
def recoveredSequence (d : Disk) : ℕ :=
  (walBatches d.live).foldl (fun n b => max n (b.next - 1)) d.lastSequence

/-- The number of the new log. The table of the recovered entries and the manifest come before it,
if there is such a table. -/
def newLog (d : Disk) : ℕ := if d.recovered = [] then d.nextFileNumber else d.nextFileNumber + 2

/-- `DBImplCore::open`. Without a table, the manifest takes its number after the log. -/
def openDb (d : Disk) : Db where
  disk :=
    { nextFileNumber := d.newLog + 1
      logNumber := d.newLog
      lastSequence := d.recoveredSequence
      wals := deleteObsoleteLogs (createLog d.wals d.newLog) d.newLog
      tables := d.tables ++ d.recovered }
  process := some
    { nextFileNumber := if d.recovered = [] then d.newLog + 2 else d.newLog + 1
      logFileNumber := d.newLog
      lastSequence := d.recoveredSequence }

end Disk

namespace Db

/-- A batch goes to the log and to the memtable. -/
def write (d : Disk) (p : Process) (batch : WriteBatch) : Db :=
  let b : LogBatch := ⟨p.lastSequence + 1, batch⟩
  { disk := { d with wals := d.wals.map fun w =>
      if w.number = p.logFileNumber then { w with batches := w.batches ++ [b] } else w }
    process := some { p with
      lastSequence := p.lastSequence + batch.handled.length
      mem := p.mem ++ b.entries } }

/-- The memtable becomes the immutable one and a new log is started. -/
def rotate (d : Disk) (p : Process) : Db :=
  { disk := { d with wals := createLog d.wals p.nextFileNumber }
    process := some { p with
      nextFileNumber := p.nextFileNumber + 1
      logFileNumber := p.nextFileNumber
      mem := []
      imm := some p.mem } }

/-- `compact_memtable_async`: the table takes a number, the edit records the number of the current
log, and the logs before it are deleted. -/
def flush (d : Disk) (p : Process) : Db :=
  match p.imm with
  | none => ⟨d, some p⟩
  | some [] => ⟨d, some { p with imm := none }⟩
  | some entries =>
    { disk :=
        { nextFileNumber := p.nextFileNumber + 1
          logNumber := p.logFileNumber
          lastSequence := p.lastSequence
          wals := deleteObsoleteLogs d.wals p.logFileNumber
          tables := d.tables ++ entries }
      process := some { p with nextFileNumber := p.nextFileNumber + 1, imm := none } }

/-- The `log_and_apply` of a compaction. -/
def install (d : Disk) (p : Process) : Db :=
  ⟨{ d with nextFileNumber := p.nextFileNumber, lastSequence := p.lastSequence }, some p⟩

/-- One action; what does not apply changes nothing. -/
def step (st : Db) (action : Action) : Db :=
  match action, st.process with
  | .openDb, none => st.disk.openDb
  | .write batch, some p =>
    if batch.Valid ∧ p.lastSequence + batch.handled.length ≤ maxSequenceNumber then
      write st.disk p batch
    else st
  | .rotate, some p => if p.imm.isNone then rotate st.disk p else st
  | .flush, some p => flush st.disk p
  | .allocate, some p =>
    { st with process := some { p with nextFileNumber := p.nextFileNumber + 1 } }
  | .install, some p => install st.disk p
  | .crash, some _ => { st with process := none }
  | _, _ => st

/-- The state that a run from an empty directory leads to. -/
def after (actions : List Action) : Db := Runs.run step {} actions

end Db

/-! ### The logs that an open leaves -/

/-- Every log but the active one has a number smaller than the manifest's `log_number`. -/
def WalsObsolete (st : Db) : Prop :=
  ∀ p ∈ st.process, ∀ w ∈ st.disk.wals, w.number ≠ p.logFileNumber → w.number < st.disk.logNumber

/-- No log has a number above that of the log that an open creates: the counter in the manifest, or
two more when a record is replayed. -/
def Disk.Covered (d : Disk) : Prop :=
  ∀ w ∈ d.wals, w.number ≤ d.nextFileNumber + if d.recovered = [] then 0 else 2

instance (d : Disk) : Decidable d.Covered := by
  unfold Disk.Covered
  infer_instance

instance (st : Db) : Decidable (WalsObsolete st) := by
  unfold WalsObsolete
  infer_instance

variable {d : Disk} {p : Process} {st : Db} {w : Wal} {e t : Entry} {n : ℕ}

theorem newLog_eq (d : Disk) : d.newLog = d.nextFileNumber + if d.recovered = [] then 0 else 2 := by
  rw [Disk.newLog]
  split_ifs <;> rfl

theorem mem_wals_openDb :
    w ∈ d.openDb.disk.wals ↔ w = ⟨d.newLog, []⟩ ∨ (w ∈ d.wals ∧ d.newLog < w.number) := by
  simp only [Disk.openDb, deleteObsoleteLogs, createLog, mem_filter, mem_append,
    mem_singleton, decide_eq_true_eq]
  constructor
  · rintro ⟨⟨hw, hne⟩ | rfl, hle⟩
    · exact .inr ⟨hw, lt_of_le_of_ne hle (Ne.symm hne)⟩
    · exact .inl rfl
  · rintro (rfl | ⟨hw, hlt⟩)
    · exact ⟨.inr rfl, le_rfl⟩
    · exact ⟨.inl ⟨hw, hlt.ne'⟩, hlt.le⟩

/-- **An open leaves obsolete logs** exactly when it finds none above its own. -/
theorem walsObsolete_openDb : WalsObsolete d.openDb ↔ d.Covered := by
  constructor
  · intro h w hw
    rw [← newLog_eq, ← not_lt]
    intro hlt
    exact absurd (h _ rfl w (mem_wals_openDb.mpr (.inr ⟨hw, hlt⟩)) hlt.ne') (not_lt.mpr hlt.le)
  · rintro h _ ⟨⟩ w hw hne
    rcases mem_wals_openDb.mp hw with rfl | ⟨hold, hlt⟩
    · exact absurd rfl hne
    · exact absurd (newLog_eq d ▸ h w hold) (not_le.mpr hlt)

/-! ### The open of the files -/

theorem foldl_max_le {batches : List LogBatch} {start : ℕ} :
    batches.foldl (fun n b => max n (b.next - 1)) start ≤ n ↔
      start ≤ n ∧ ∀ b ∈ batches, b.next - 1 ≤ n := by
  induction batches generalizing start with
  | nil => simp
  | cons b batches ih => rw [foldl_cons, ih, max_le_iff, forall_mem_cons, and_assoc]

theorem recoveredSequence_le :
    d.recoveredSequence ≤ n ↔ d.lastSequence ≤ n ∧ ∀ b ∈ walBatches d.live, b.next - 1 ≤ n :=
  foldl_max_le

/-- The directory is as the disk says: recovery finds the numbers and the logs hold the batches. -/
structure Describes (c : Comparator) (files : DbFiles) (vs : VersionSet) (d : Disk) : Prop where
  manifest : VersionSet.recover c files.dir = .ok vs
  comparator : checkComparatorName c vs = .ok ()
  nextFileNumber : vs.nextFileNumber = d.nextFileNumber
  logNumber : vs.logNumber = d.logNumber
  prevLogNumber : vs.prevLogNumber = 0
  lastSequence : vs.lastSequence = d.lastSequence
  logs : files.logs = d.wals.map Wal.file

/-- The numbers and strings that an open writes fit their machine types. -/
structure OpenFits (c : Comparator) (sizing : Sizing) (vs : VersionSet) (d : Disk) : Prop where
  version : vs.Fits c
  pointers : ∀ level, (vs.compactPointer level).length < 2 ^ 32
  nextFileNumber : vs.nextFileNumber + 4 < 2 ^ 64
  lastSequence : d.recoveredSequence < 2 ^ 64
  keys : ∀ e ∈ d.recovered, e.ik.length < 2 ^ 32
  size : ∀ entries, entries.Perm d.recovered → sizing.finished entries < 2 ^ 64

section Files

variable {c : Comparator} {files : DbFiles} {vs : VersionSet} {sizing : Sizing}

theorem Describes.live (h : Describes c files vs d) :
    (files.logs.filter fun log => vs.logNumber ≤ log.1 || log.1 == vs.prevLogNumber) =
      d.live.map Wal.file := by
  rw [h.logs, h.logNumber, h.prevLogNumber, filter_map]
  rfl

private theorem map_file_wals (wals : List Wal) (n : ℕ) :
    (((wals.map Wal.file).filter fun log : ℕ × Bytes => log.1 ≠ n) ++ [(n, [])]).filter
        (fun log => n ≤ log.1) =
      (deleteObsoleteLogs (createLog wals n) n).map Wal.file := by
  rw [filter_map, deleteObsoleteLogs, createLog,
    show ([(n, [])] : List (ℕ × Bytes)) = [(⟨n, []⟩ : Wal)].map Wal.file from rfl,
    ← map_append, filter_map]
  rfl

/-- **An edit of an open** is recorded, in the open manifest or in the one that it starts. -/
theorem lastRecord_of_ok {vs₁ : VersionSet} {files₁ : DbFiles} {edit : VersionEdit}
    (hman : (vs.manifest = none ∧ vs.Fits c ∧
        ∀ level, (vs.compactPointer level).length < 2 ^ 32) ∨
      ∃ e, LastRecord ⟨vs, files.dir⟩ e)
    (hedit : edit.Encodable) (hlog : vs.logNumber < 2 ^ 64) (hprev : vs.prevLogNumber = 0)
    (hnext : vs.nextFileNumber + 2 < 2 ^ 64) (hlast : vs.lastSequence < 2 ^ 64)
    (happly : logAndApplyFiles c { vs with nextFileNumber := vs.nextFileNumber + 1 } files edit =
      .ok (vs₁, files₁)) :
    LastRecord ⟨vs₁, files₁.dir⟩
      (VersionSet.stash { vs with nextFileNumber := vs.nextFileNumber + 1 } edit) := by
  refine LastRecord.of_logAndApplyFiles happly (VersionSet.encodable_stash hedit hlog
    (hprev ▸ Nat.two_pow_pos 64) hlast (Nat.lt_of_succ_lt hnext)) ?_
  rcases hman with ⟨hnone, hfits, hpointers⟩ | ⟨e, m, edits, hl, hbuf⟩
  · exact .inl ⟨hnone, VersionSet.encodable_snapshotEdit
      ⟨hfits.name, hfits.logNumber, hfits.prevLogNumber, hfits.files⟩ hlast hnext
      (length_setCompactPointers hpointers fun p hp => (hedit.compactPointers p hp).2)⟩
  · exact .inr ⟨e, m, edits, ⟨hl.toHoldsEdits, hl.manifest, hl.disk, hl.current⟩, hbuf⟩

/-- The open database and its directory are as the disk says. -/
structure Opened (db : OpenedDb c) (st : Db) : Prop where
  mem : db.mem.entries = []
  process : st.process = some
    { nextFileNumber := db.vs.nextFileNumber
      logFileNumber := db.logFileNumber
      lastSequence := db.vs.lastSequence }
  disk : ∃ vs, Describes c db.files vs st.disk

/-- **The end of an open** leaves the numbers of the new log in the manifest. -/
theorem opened_startLog {mem : MemTable c} (hmem : mem.entries = [])
    (hman : (vs.manifest = none ∧ d.recovered = [] ∧ vs.Fits c ∧
        ∀ level, (vs.compactPointer level).length < 2 ^ 32) ∨
      d.recovered ≠ [] ∧ ∃ e, LastRecord ⟨vs, files.dir⟩ e)
    (hname : c.name.toUTF8.toList.length < 2 ^ 32) (hlog : vs.logNumber < 2 ^ 64)
    (hprev : vs.prevLogNumber = 0) (hnext : vs.nextFileNumber + 2 < 2 ^ 64)
    (hlast : vs.lastSequence < 2 ^ 64) (hnum : vs.nextFileNumber = d.newLog)
    (hseq : vs.lastSequence = d.recoveredSequence) (hlogs : files.logs = d.wals.map Wal.file) :
    ∃ db, startLog c vs files mem = .ok db ∧ Opened db d.openDb := by
  obtain ⟨vs₁, dir, happly, happ⟩ := logAndApplyFiles_eq c
    { vs with nextFileNumber := vs.nextFileNumber + 1 } files (newLogEdit c vs.nextFileNumber)
  have hedit : (newLogEdit c vs.nextFileNumber).Encodable :=
    { VersionEdit.encodable_default with
      comparator := fun name hmem => Option.mem_some_iff.mp hmem ▸ hname
      logNumber := fun n hmem => Option.mem_some_iff.mp hmem ▸ Nat.lt_of_add_right_lt hnext }
  have hrec := lastRecord_of_ok (hman.imp (fun h => ⟨h.1, h.2.2⟩) And.right) hedit hlog
    hprev hnext hlast happly
  obtain ⟨st, hrecover⟩ := (LastRecord.deleteObsoleteManifests hrec).recover (c := c) rfl rfl
  refine ⟨_, startLog_of_ok happly mem, hmem, ?_, _, hrecover, if_pos rfl,
    congrArg (· + 1) hnum, hnum, hprev, hseq, ?_⟩
  · -- The manifest takes its number here when there was no table.
    simp only [Disk.openDb, happ.nextFileNumber, happ.lastSequence, hnum, hseq]
    rcases hman with ⟨hnone, hempty, -⟩ | ⟨hempty, e, m, edits, hl, -⟩
    · simp [hnone, hempty]
    · have hsome : vs.manifest = some m := hl.manifest
      simp [hsome, hempty]
  · change ((files.logs.filter fun log => log.1 ≠ vs.nextFileNumber) ++ _).filter _ = _
    rw [hlogs, hnum]
    exact map_file_wals d.wals d.newLog

theorem max_maxSequence (h : Describes c files vs d) {maxSequence : ℕ}
    (hmax : ∀ n, maxSequence ≤ n ↔ ∀ b ∈ walBatches d.live, b.next ≤ n + 1) :
    max vs.lastSequence maxSequence = d.recoveredSequence := by
  refine eq_of_forall_ge_iff fun n => ?_
  rw [max_le_iff, hmax, recoveredSequence_le, h.lastSequence]
  simp only [Nat.sub_le_iff_le_add]

/-- The table of the recovered entries in an edit. -/
theorem encodable_recoveredEdit {entries : List Entry} {first last : Entry}
    (hfits : OpenFits c sizing vs d) (hperm : entries.Perm d.recovered)
    (hfst : entries.head? = some first) (hlast : entries.getLast? = some last) :
    (recoveredEdit c sizing vs entries first last).Encodable :=
  { VersionEdit.encodable_default with
    newFiles := forall_mem_singleton.mpr
      ⟨Version.pickLevelForMemtableOutput_lt _ _ _ _, Nat.lt_of_add_right_lt hfits.nextFileNumber,
        hfits.size entries hperm,
        hfits.keys first (hperm.mem_iff.mp (mem_of_mem_head? hfst)),
        hfits.keys last (hperm.mem_iff.mp (mem_of_mem_getLast? hlast))⟩ }

/-- **The open of the files does what the open of the disk says.** -/
theorem openDb_describes (h : Describes c files vs d) (hfits : OpenFits c sizing vs d)
    (hbatches : ∀ b ∈ walBatches d.live, b.Ok) {options : OpenOptions}
    (hopts : options.errorIfExists = false) :
    ∃ db, openDb c sizing options files = .ok db ∧ Opened db d.openDb := by
  obtain ⟨recovery, hrecovery, hperm, hmax⟩ :=
    @recoverLogs_of_wals c files vs d.live h.live hbatches options.paranoidChecks
  let vs₀ : VersionSet := { vs with lastSequence := d.recoveredSequence }
  have hnone₀ : vs₀.manifest = none := (exists_builder_of_recover h.manifest).1
  have hnext : vs₀.nextFileNumber + 4 < 2 ^ 64 := hfits.nextFileNumber
  have hfits₀ : vs₀.Fits c := { hfits.version with }
  have hopen : ∀ {vs' files' mem'},
      flushRecovered c sizing vs₀ files recovery.mem = .ok (vs', files', mem') →
      openDb c sizing options files = startLog c vs' files' mem' := by
    intro vs' files' mem' hflush
    have hrecover : recoverDb c sizing options files = .ok (vs', files', mem') := by
      simp only [recoverDb, h.manifest, h.comparator, hrecovery, ok_bind, max_maxSequence h hmax]
      exact hflush
    simp [openDb, isSome_current_of_recover h.manifest, hopts, hrecover]
  rcases flushRecovered_cases c sizing vs₀ files recovery.mem with
    ⟨hnil, hflush⟩ | ⟨first, last, vs₁, files₁, hfst, hlast, hflush, happly⟩
  · -- Nothing is replayed, and the new log takes the counter of the manifest.
    have hempty : d.recovered = [] := by
      rw [hnil] at hperm
      exact hperm.nil_eq.symm
    have hlog : vs₀.nextFileNumber = d.newLog := by
      rw [Disk.newLog, if_pos hempty]
      exact h.nextFileNumber
    rw [hopen hflush]
    exact opened_startLog hnil (.inl ⟨hnone₀, hempty, hfits₀, hfits.pointers⟩) hfits₀.name
      hfits₀.logNumber h.prevLogNumber (by omega) hfits.lastSequence hlog rfl h.logs
  · -- The table takes the counter and the manifest the number after it.
    have hempty : d.recovered ≠ [] := fun hnil => by
      rw [← Disk.recovered, hnil] at hperm
      rw [hperm.eq_nil] at hfst
      cases hfst
    have hedit : (recoveredEdit c sizing vs₀ recovery.mem.entries first last).Encodable :=
      encodable_recoveredEdit { hfits with version := hfits₀ } hperm hfst hlast
    have hrec := lastRecord_of_ok (.inl ⟨hnone₀, hfits₀, hfits.pointers⟩) hedit
      hfits₀.logNumber h.prevLogNumber (by omega) hfits.lastSequence happly
    obtain ⟨dir, rfl, happ⟩ := applied_of_ok happly
    have hcounter : vs₁.nextFileNumber = vs₀.nextFileNumber + 2 := by
      rw [happ.nextFileNumber, hnone₀]
      rfl
    have hlog : vs₁.nextFileNumber = d.newLog := by
      rw [Disk.newLog, if_neg hempty, hcounter, ← h.nextFileNumber]
    have hlast₁ : vs₁.lastSequence = d.recoveredSequence := happ.lastSequence
    rw [hopen hflush]
    exact opened_startLog rfl (.inr ⟨hempty, _, hrec⟩) hfits₀.name
      (happ.logNumber ▸ hfits₀.logNumber) (happ.prevLogNumber.trans h.prevLogNumber)
      (by omega) (hlast₁ ▸ hfits.lastSequence) hlog hlast₁ h.logs

/-- The open of an empty directory. -/
theorem openDb_describes_new (hcur : files.dir.current = none) (hlogs : files.logs = [])
    (hname : c.name.toUTF8.toList.length < 2 ^ 32) {options : OpenOptions}
    (hopts : options.createIfMissing = true) :
    ∃ db, openDb c sizing options files = .ok db ∧ Opened db ({} : Disk).openDb := by
  have hfits : ({} : VersionSet).Fits c :=
    ⟨hname, by decide, by decide, fun _ _ hf => absurd hf not_mem_nil⟩
  have hopen : openDb c sizing options files = startLog c {} files {} := by
    simp [openDb, hcur, hopts]
  rw [hopen]
  exact opened_startLog rfl (.inl ⟨rfl, rfl, hfits, fun _ => Nat.two_pow_pos 32⟩) hname (by decide)
    rfl (by decide) (by decide) rfl rfl (hlogs.trans map_nil.symm)

theorem openDb_describes_empty :
    ∃ db, openDb bytewiseComparator ⟨fun _ => 0, fun _ => 0⟩ { createIfMissing := true } {} =
      .ok db ∧ Opened db ({} : Disk).openDb :=
  openDb_describes_new rfl rfl (by decide +kernel) rfl

end Files

/-! ### Replayed at most once -/

/-- An open after these actions finds no running process. -/
def Opens (before : List Action) : Prop := (Db.after before).process = none

/-- **Records are replayed at most once.** After every open of a run all other logs are obsolete, no
later open replays an entry that an earlier one has put into its table, and what an open replays is
newer than the entries of the same key in the tables. -/
structure ReplaysOnce (actions : List Action) : Prop where
  obsolete : ∀ before later, actions = before ++ .openDb :: later → Opens before →
    WalsObsolete (Db.after (before ++ [.openDb]))
  once : ∀ before between later, actions = before ++ .openDb :: (between ++ .openDb :: later) →
    Opens before → Opens (before ++ .openDb :: between) →
    ∀ e ∈ (Db.after before).disk.recovered,
      e ∉ (Db.after (before ++ .openDb :: between)).disk.recovered
  newer : ∀ before later, actions = before ++ .openDb :: later → Opens before →
    ∀ e ∈ (Db.after before).disk.recovered, ∀ t ∈ (Db.after before).disk.tables,
      t.key = e.key → t.sequence < e.sequence

/-- Every open of the run finds no log above its own. -/
def CoveredOpens (actions : List Action) : Prop :=
  ∀ before later, actions = before ++ .openDb :: later → Opens before →
    (Db.after before).disk.Covered

theorem after_concat (actions : List Action) (a : Action) :
    Db.after (actions ++ [a]) = (Db.after actions).step a :=
  Runs.run_append

theorem step_openDb (h : st.process = none) : st.step .openDb = st.disk.openDb := by
  simp only [Db.step, h]

theorem after_openDb {before : List Action} (h : Opens before) :
    Db.after (before ++ [.openDb]) = (Db.after before).disk.openDb := by
  rw [after_concat, step_openDb h]

/-! ### What is in the tables is older than what is in the logs -/

/-- The tables have sequence numbers up to `flushed`, which the manifest has recorded, and the logs
have larger ones. -/
structure DiskInv (d : Disk) (flushed : ℕ) : Prop where
  tables : ∀ t ∈ d.tables, t.sequence ≤ flushed
  recorded : flushed ≤ d.lastSequence
  lastSequence : d.lastSequence ≤ maxSequenceNumber
  batches : ∀ w ∈ d.wals, ∀ b ∈ w.batches, b.Ok ∧ flushed < b.sequence

/-- The active log has the largest number and the sequence numbers behind `rotated`, up to which the
immutable memtable reaches. -/
structure ProcessInv (d : Disk) (p : Process) (flushed rotated : ℕ) : Prop where
  flushed_le : flushed ≤ rotated
  rotated_le : rotated ≤ p.lastSequence
  recorded : d.lastSequence ≤ p.lastSequence
  lastSequence : p.lastSequence ≤ maxSequenceNumber
  mem : ∀ e ∈ p.mem, e.sequence ≤ p.lastSequence
  imm : ∀ entries ∈ p.imm, ∀ e ∈ entries, e.sequence ≤ rotated
  numbers : ∀ w ∈ d.wals, w.number ≤ p.logFileNumber
  active : ∀ w ∈ d.wals, w.number = p.logFileNumber → ∀ b ∈ w.batches, rotated < b.sequence
  fresh : p.logFileNumber < p.nextFileNumber

/-- The invariants of the disk and of the process. -/
def Inv (st : Db) : Prop :=
  ∃ flushed, DiskInv st.disk flushed ∧
    ∀ p ∈ st.process, ∃ rotated, ProcessInv st.disk p flushed rotated

variable {flushed rotated : ℕ}

theorem LogBatch.mem_entries {b : LogBatch} (h : b.Ok) (he : e ∈ b.entries) :
    b.sequence ≤ e.sequence ∧ e.sequence < b.next := by
  obtain ⟨hle, hlt, -⟩ := WriteBatchRecord.mem_entriesFrom he h.fits
  exact ⟨hle, hlt⟩

theorem mem_recovered (he : e ∈ d.recovered) :
    ∃ w ∈ d.wals, ∃ b ∈ w.batches, b ∈ walBatches d.live ∧ e ∈ b.entries := by
  obtain ⟨b, hb, he⟩ := mem_flatMap.mp he
  obtain ⟨w, hw, hbw⟩ := mem_flatMap.mp hb
  exact ⟨w, mem_of_mem_filter hw, b, hbw, hb, he⟩

/-- What is replayed is newer than the tables. -/
theorem DiskInv.flushed_lt (h : DiskInv d flushed) (he : e ∈ d.recovered) :
    flushed < e.sequence := by
  obtain ⟨w, hw, b, hb, -, he⟩ := mem_recovered he
  obtain ⟨hok, hlt⟩ := h.batches w hw b hb
  exact hlt.trans_le (LogBatch.mem_entries hok he).1

theorem DiskInv.sequence_le (h : DiskInv d flushed) (he : e ∈ d.recovered) :
    e.sequence ≤ d.recoveredSequence := by
  obtain ⟨w, hw, b, hb, hlive, he⟩ := mem_recovered he
  have hlt := (LogBatch.mem_entries (h.batches w hw b hb).1 he).2
  have hle := (recoveredSequence_le.mp le_rfl).2 b hlive
  omega

/-- **An open that leaves only its own log** keeps the invariant. -/
theorem DiskInv.openDb (h : DiskInv d flushed) (hcovered : d.Covered) : Inv d.openDb := by
  have hle := recoveredSequence_le.mp (le_refl d.recoveredSequence)
  have hmax : d.recoveredSequence ≤ maxSequenceNumber := by
    refine recoveredSequence_le.mpr ⟨h.lastSequence, fun b hb => ?_⟩
    obtain ⟨w, hw, hbw⟩ := mem_flatMap.mp hb
    have hfits := (h.batches w (mem_of_mem_filter hw) b hbw).1.fits
    omega
  have hwals : ∀ w ∈ d.openDb.disk.wals, w = ⟨d.newLog, []⟩ := fun w hw => by
    rcases mem_wals_openDb.mp hw with rfl | ⟨hold, hlt⟩
    · rfl
    · exact absurd (newLog_eq d ▸ hcovered w hold) (not_le.mpr hlt)
  refine ⟨d.recoveredSequence, ⟨fun t ht => ?_, le_rfl, hmax, fun w hw b hb => ?_⟩, ?_⟩
  · rcases mem_append.mp ht with ht | ht
    · exact ((h.tables t ht).trans h.recorded).trans hle.1
    · exact h.sequence_le ht
  · rw [hwals w hw] at hb
    cases hb
  · rintro _ ⟨⟩
    refine ⟨d.recoveredSequence,
      { flushed_le := le_rfl
        rotated_le := le_rfl
        recorded := le_rfl
        lastSequence := hmax
        mem := fun _ he => absurd he not_mem_nil
        imm := fun _ himm => by cases himm
        numbers := fun w hw => (congrArg Wal.number (hwals w hw)).le
        active := fun w hw _ b hb => by
          rw [hwals w hw] at hb
          cases hb
        fresh := ?_ }⟩
    dsimp only [Disk.openDb]
    split_ifs <;> omega

section

variable (hdisk : DiskInv d flushed) (h : ProcessInv d p flushed rotated)
include hdisk h

/-- **A write** has sequence numbers behind all others. -/
theorem Inv.write {batch : WriteBatch} (hvalid : batch.Valid)
    (hfits : p.lastSequence + batch.handled.length ≤ maxSequenceNumber) :
    Inv (Db.write d p batch) := by
  have hok : (⟨p.lastSequence + 1, batch⟩ : LogBatch).Ok := by
    refine ⟨hvalid, ?_, ?_⟩ <;> rw [LogBatch.next] <;> dsimp only <;> omega
  have hwals : ∀ w ∈ (Db.write d p batch).disk.wals, ∃ old ∈ d.wals, w.number = old.number ∧
      ∀ b ∈ w.batches, b ∈ old.batches ∨ b = ⟨p.lastSequence + 1, batch⟩ := by
    intro w hw
    obtain ⟨old, hold, rfl⟩ := mem_map.mp hw
    refine ⟨old, hold, ?_⟩
    split_ifs
    · exact ⟨rfl, fun b hb => (mem_append.mp hb).imp_right mem_singleton.mp⟩
    · exact ⟨rfl, fun b hb => .inl hb⟩
  refine ⟨flushed, { hdisk with batches := fun w hw b hb => ?_ }, ?_⟩
  · obtain ⟨old, hold, -, hsource⟩ := hwals w hw
    rcases hsource b hb with hb | rfl
    · exact hdisk.batches old hold b hb
    · exact ⟨hok, Nat.lt_succ_of_le (h.flushed_le.trans h.rotated_le)⟩
  · rintro _ ⟨⟩
    refine ⟨rotated, { h with
      rotated_le := h.rotated_le.trans (Nat.le_add_right _ _)
      recorded := h.recorded.trans (Nat.le_add_right _ _)
      lastSequence := hfits
      mem := fun e he => ?_
      numbers := fun w hw => ?_
      active := fun w hw hnum b hb => ?_ }⟩
    · rcases mem_append.mp he with he | he
      · exact (h.mem e he).trans (Nat.le_add_right _ _)
      · have hlt := (LogBatch.mem_entries hok he).2
        rw [LogBatch.next] at hlt
        dsimp only at hlt ⊢
        omega
    · obtain ⟨old, hold, heq, -⟩ := hwals w hw
      exact heq ▸ h.numbers old hold
    · obtain ⟨old, hold, heq, hsource⟩ := hwals w hw
      rcases hsource b hb with hb | rfl
      · exact h.active old hold (heq ▸ hnum) b hb
      · exact Nat.lt_succ_of_le h.rotated_le

/-- **A rotation** starts a log with a number above all others. -/
theorem Inv.rotate : Inv (Db.rotate d p) := by
  have hwals : ∀ w ∈ (Db.rotate d p).disk.wals, w ∈ d.wals ∨ w = ⟨p.nextFileNumber, []⟩ := by
    intro w hw
    exact (mem_append.mp hw).imp mem_of_mem_filter mem_singleton.mp
  refine ⟨flushed, { hdisk with batches := fun w hw b hb => ?_ }, ?_⟩
  · rcases hwals w hw with hold | rfl
    · exact hdisk.batches w hold b hb
    · cases hb
  · rintro _ ⟨⟩
    refine ⟨p.lastSequence, { h with
      flushed_le := h.flushed_le.trans h.rotated_le
      rotated_le := le_rfl
      mem := fun _ he => absurd he not_mem_nil
      imm := ?_
      numbers := fun w hw => ?_
      active := fun w hw hnum b hb => ?_
      fresh := Nat.lt_succ_self _ }⟩
    · rintro _ ⟨⟩
      exact h.mem
    · rcases hwals w hw with hold | rfl
      · exact (h.numbers w hold).trans h.fresh.le
      · exact le_rfl
    · rcases hwals w hw with hold | rfl
      · exact absurd hnum ((h.numbers w hold).trans_lt h.fresh).ne
      · cases hb

/-- **A flush** leaves the active log. -/
theorem Inv.flush : Inv (Db.flush d p) := by
  unfold Db.flush
  split
  · exact ⟨flushed, hdisk, fun _ hp => Option.mem_some_iff.mp hp ▸ ⟨rotated, h⟩⟩
  · refine ⟨flushed, hdisk, ?_⟩
    rintro _ ⟨⟩
    exact ⟨rotated, { h with imm := fun _ himm => by cases himm }⟩
  · rename_i entries _ himm
    have hwals : ∀ w ∈ deleteObsoleteLogs d.wals p.logFileNumber,
        w ∈ d.wals ∧ w.number = p.logFileNumber := fun w hw => by
      obtain ⟨hold, hle⟩ := mem_filter.mp hw
      exact ⟨hold, le_antisymm (h.numbers w hold) (decide_eq_true_iff.mp hle)⟩
    refine ⟨rotated, ⟨fun t ht => ?_, h.rotated_le, h.lastSequence, fun w hw b hb => ?_⟩, ?_⟩
    · rcases mem_append.mp ht with ht | ht
      · exact (hdisk.tables t ht).trans h.flushed_le
      · exact h.imm _ himm t ht
    · obtain ⟨hold, hnum⟩ := hwals w hw
      exact ⟨(hdisk.batches w hold b hb).1, h.active w hold hnum b hb⟩
    · rintro _ ⟨⟩
      exact ⟨rotated,
        { flushed_le := le_rfl
          rotated_le := h.rotated_le
          recorded := le_rfl
          lastSequence := h.lastSequence
          mem := h.mem
          imm := fun _ himm => by cases himm
          numbers := fun w hw => (hwals w hw).2.le
          active := fun w hw => h.active w (hwals w hw).1
          fresh := h.fresh.trans (Nat.lt_succ_self _) }⟩

end

/-- **One step keeps the invariant**, if it is not an open that finds a log above its own. -/
theorem Inv.step (h : Inv st) {a : Action}
    (hcovered : a = .openDb → st.process = none → st.disk.Covered) : Inv (st.step a) := by
  obtain ⟨flushed, hdisk, hprocess⟩ := h
  obtain ⟨d, _ | p⟩ := st
  · cases a
    case openDb => exact hdisk.openDb (hcovered rfl rfl)
    all_goals exact ⟨flushed, hdisk, hprocess⟩
  · obtain ⟨rotated, hinv⟩ := hprocess p rfl
    cases a <;> simp only [Db.step]
    case openDb => exact ⟨flushed, hdisk, hprocess⟩
    case write batch =>
      split_ifs with hguard
      · exact Inv.write hdisk hinv hguard.1 hguard.2
      · exact ⟨flushed, hdisk, hprocess⟩
    case rotate =>
      split_ifs
      · exact Inv.rotate hdisk hinv
      · exact ⟨flushed, hdisk, hprocess⟩
    case flush => exact Inv.flush hdisk hinv
    case allocate =>
      refine ⟨flushed, hdisk, ?_⟩
      rintro _ ⟨⟩
      exact ⟨rotated, { hinv with fresh := hinv.fresh.trans (Nat.lt_succ_self _) }⟩
    case install =>
      refine ⟨flushed, { hdisk with
        recorded := hdisk.recorded.trans hinv.recorded
        lastSequence := hinv.lastSequence }, ?_⟩
      rintro _ ⟨⟩
      exact ⟨rotated, { hinv with recorded := le_rfl }⟩
    case crash => exact ⟨flushed, hdisk, fun _ hp => by cases hp⟩

theorem inv_empty : Inv {} :=
  ⟨0, ⟨fun _ ht => absurd ht not_mem_nil, le_rfl, Nat.zero_le _,
    fun _ hw => absurd hw not_mem_nil⟩, fun _ hp => by cases hp⟩

theorem CoveredOpens.of_append {actions more : List Action} (h : CoveredOpens (actions ++ more)) :
    CoveredOpens actions := fun before later heq =>
  h before (later ++ more) (by rw [heq, append_assoc, cons_append])

/-- **A run whose opens find no log above their own** keeps the invariant. -/
theorem Inv.after {actions : List Action} (h : CoveredOpens actions) : Inv (Db.after actions) := by
  induction actions using List.reverseRecOn with
  | nil => exact inv_empty
  | append_singleton actions a ih =>
    rw [after_concat]
    exact (ih h.of_append).step fun ha hp => h actions [] (by rw [ha]) hp

/-- What was put into a table stays in the list. -/
theorem mem_tables_step (a : Action) (ht : t ∈ st.disk.tables) : t ∈ (st.step a).disk.tables := by
  obtain ⟨d, _ | p⟩ := st <;> cases a <;> simp only [Db.step]
  case none.openDb => exact mem_append_left _ ht
  case some.write => split_ifs <;> exact ht
  case some.rotate => split_ifs <;> exact ht
  case some.flush =>
    unfold Db.flush
    split
    · exact ht
    · exact ht
    · exact mem_append_left _ ht
  all_goals exact ht

theorem mem_tables_run (actions : List Action) (ht : t ∈ st.disk.tables) :
    t ∈ (Runs.run Db.step st actions).disk.tables :=
  Runs.invariant_of_step (I := fun st : Db => t ∈ st.disk.tables)
    (fun _ a h => mem_tables_step a h) ht

/-- **Records are replayed at most once** in exactly the runs whose opens find no log above their
own. -/
theorem replaysOnce_iff (actions : List Action) : ReplaysOnce actions ↔ CoveredOpens actions := by
  constructor
  · intro h before later heq ho
    have hobs := h.obsolete before later heq ho
    rwa [after_openDb ho, walsObsolete_openDb] at hobs
  · intro h
    have hpre : ∀ {before later}, actions = before ++ later → CoveredOpens before :=
      fun heq => (heq ▸ h : CoveredOpens (_ ++ _)).of_append
    refine ⟨fun before later heq ho => ?_, ?_, fun before later heq ho e he t ht _ => ?_⟩
    · rw [after_openDb ho, walsObsolete_openDb]
      exact h before later heq ho
    · intro before between later heq ho ho' e he he'
      obtain ⟨flushed, hdisk, -⟩ := Inv.after (@hpre (before ++ .openDb :: between)
        (.openDb :: later) (by rw [heq, append_assoc, cons_append]))
      have htab : e ∈ (Db.after (before ++ .openDb :: between)).disk.tables := by
        have hrun : Db.after (before ++ .openDb :: between) =
            Runs.run Db.step (Db.after (before ++ [.openDb])) between := by
          rw [Db.after, Db.after, ← Runs.run_append, append_assoc, singleton_append]
        rw [hrun, after_openDb ho]
        exact mem_tables_run between (mem_append_right _ he)
      exact absurd (hdisk.tables e htab) (not_le.mpr (hdisk.flushed_lt he'))
    · obtain ⟨flushed, hdisk, -⟩ := Inv.after (hpre heq)
      exact (hdisk.tables t ht).trans_lt (hdisk.flushed_lt he)

/-! ### A log that is replayed twice -/

/-- A write of the key `[107]`. -/
def putOf107 (value : UInt8) : Action := .write (WriteBatch.new.put [107] [value])

/-- A memtable is flushed. A compaction takes four numbers for its outputs before the next rotation,
so the counter in the manifest is four behind the new log when the process dies. The database is
opened, the key is written again and flushed, and the process dies once more. -/
def staleLog : List Action :=
  [.openDb, putOf107 1, .rotate, .flush, .allocate, .allocate, .allocate, .allocate, putOf107 2,
    .rotate, putOf107 3, .crash, .openDb, putOf107 4, .rotate, .flush, .crash, .openDb]

/-- The second open leaves a log above its own. The third one replays it again, and the entry is
older than the one of its key in a table. -/
theorem not_replaysOnce_staleLog :
    ¬ ReplaysOnce staleLog ∧
      ∃ e ∈ (Db.after (staleLog.take 17)).disk.recovered,
        e ∈ (Db.after (staleLog.take 12)).disk.recovered ∧
          ∃ t ∈ (Db.after (staleLog.take 17)).disk.tables,
            t.key = e.key ∧ e.sequence < t.sequence := by
  refine ⟨fun h => ?_, by decide +kernel⟩
  have hobs := h.obsolete (staleLog.take 12) (staleLog.drop 13) rfl
    (Option.isNone_iff_eq_none.mp (by decide +kernel))
  revert hobs
  decide +kernel

end Reopen
end PulsearcDb
