import PulsearcDb.DbImpl.OpenReads
import PulsearcDb.FileName

/-!
# Repairing a database

`repair_db` (`repair/repair.rs`), without failures of the files. It makes a table of every log, in
the order in which the directory lists the logs, scans all tables, and writes a manifest with all of
them at level 0. There the file with the largest number is asked first. So the tables of the logs
come before all others, the last listed one first, and the others follow by decreasing number,
whatever level they had (`repairOrder`).

The order of the levels is lost: a compaction gives old entries a new number. The order of the logs
is that of the directory and not that of their numbers.
-/

namespace PulsearcDb

open Recency Log List

/-- What scanning a table finds. -/
structure TableInfo where
  metadata : FileMetaData
  maxSequence : ℕ

/-- Outcome of `repair_db`. -/
structure RepairReport where
  recoveredFiles : ℕ
  recoveredBytes : ℕ
  archivedTableNumbers : List ℕ

/-- `struct Repairer`, with the files that it works on. -/
structure Repairer where
  files : DbFiles
  nextFileNumber : ℕ := 1
  manifests : List ℕ := []
  logs : List ℕ := []
  tableNumbers : List ℕ := []
  tables : List TableInfo := []
  archived : List ℕ := []

/-- The sequence number that `parse_internal_key` finds. -/
def parsedSequence (ik : Bytes) : Option ℕ :=
  if ik.length < 8 ∨ 1 < keyTypeByte ik then none else some (keySequence ik)

/-- `set_next_file_number`: the counter does not go back. -/
def VersionSet.setNextFileNumber (vs : VersionSet) (n : ℕ) : VersionSet :=
  { vs with nextFileNumber := if vs.nextFileNumber < n then n else vs.nextFileNumber }

namespace Repairer

variable {c : Comparator}

/-- The next file number is to be beyond a number. -/
def pass (r : Repairer) (number : ℕ) : Repairer :=
  { r with nextFileNumber :=
      if number + 1 > r.nextFileNumber then number + 1 else r.nextFileNumber }

/-- The body of the loop of `find_files`, on a name as `parse_file_name` reads it. -/
def addFile (r : Repairer) : Option (ℕ × FileType) → Repairer
  | none => r
  | some (number, .descriptorFile) => { r with manifests := r.manifests ++ [number] }
  | some (number, .logFile) => { r.pass number with logs := r.logs ++ [number] }
  | some (number, .tableFile) => { r.pass number with tableNumbers := r.tableNumbers ++ [number] }
  | some (number, _) => r.pass number

/-- `find_files`, on what `list_dir` returns. -/
def findFiles (dbname : String) (listing : List (Option (ℕ × FileType))) (files : DbFiles) :
    Result Repairer :=
  if listing.isEmpty then .error (Status.ioError ("repair found no files in " ++ dbname))
  else .ok (listing.foldl addFile { files })

/-- The body of the loop over the records of a log. Short and malformed records are passed over,
with what they have inserted. `LogToMemInserter` adds what `MemTableInserter` adds. -/
def replayRecord (mem : MemTable c) (record : Bytes) : Outcome (MemTable c) :=
  if record.length < 12 then (.ok (), mem)
  else
    match WriteBatch.setContents record with
    | .error _ => (.ok (), mem)
    | .ok batch =>
      (.ok (), (batch.iterate MemTableInserter.handle { sequence := batch.sequence, mem }).2.mem)

/-- The entries of a log, up to the first record that cannot be read. -/
def logEntries (c : Comparator) (log : Bytes) : List Entry :=
  (replay (replayRecord (c := c)) {} log).2.entries

/-- The recovered entries become a table. -/
def addTable (r : Repairer) (entries : List Entry) : Repairer :=
  match entries.head?, entries.getLast? with
  | some first, some last =>
    { r with
      files := r.files.writeTable
        { number := r.nextFileNumber, smallest := first.ik, largest := last.ik, entries }
      nextFileNumber := r.nextFileNumber + 1
      tableNumbers := r.tableNumbers ++ [r.nextFileNumber] }
  | _, _ => r

/-- The entries of a log become a table. -/
def convertLogToTable (c : Comparator) (r : Repairer) (number : ℕ) : Repairer :=
  match r.files.logs.lookup number with
  | none => r
  | some log => r.addTable (logEntries c log)

/-- `archive_file` on a log. -/
def archiveLog (r : Repairer) (number : ℕ) : Repairer :=
  { r with files := { r.files with logs := r.files.logs.filter (·.1 ≠ number) } }

/-- The logs, in the order of the listing. -/
def convertLogFilesToTables (c : Comparator) (r : Repairer) : Repairer :=
  r.logs.foldl (fun r number => (r.convertLogToTable c number).archiveLog number) r

/-- What `scan_table` derives from the entries of a table. -/
def tableInfo (sizing : Sizing) (number : ℕ) (entries : List Entry) : TableInfo where
  metadata :=
    { number
      fileSize := sizing.finished entries
      smallest := entries.head?.elim [] Entry.ik
      largest := entries.getLast?.elim [] Entry.ik }
  maxSequence := (entries.filterMap fun e => parsedSequence e.ik).foldl max 0

/-- `scan_table`. An empty table is archived. -/
def scanTable (sizing : Sizing) (r : Repairer) (number : ℕ) : Repairer :=
  if (r.files.contents number).isEmpty then
    { r with
      files := { r.files with tables := r.files.tables.filter (· ≠ number) }
      archived := r.archived ++ [number] }
  else { r with tables := r.tables ++ [tableInfo sizing number (r.files.contents number)] }

/-- Scan all tables. -/
def extractMetadata (sizing : Sizing) (r : Repairer) : Repairer :=
  r.tableNumbers.foldl (scanTable sizing) r

/-- The version set of `write_descriptor`. -/
def descriptorVersionSet (r : Repairer) : VersionSet :=
  { VersionSet.setNextFileNumber {} r.nextFileNumber with
    lastSequence := (r.tables.map TableInfo.maxSequence).foldl max 0 }

/-- The edit of `write_descriptor`: all tables at level 0. -/
def descriptorEdit (c : Comparator) (r : Repairer) : VersionEdit :=
  { comparator := some c.name.toUTF8.toList
    logNumber := some 0
    newFiles := r.tables.map fun t => ⟨0, t.metadata⟩ }

/-- The manifests that were there are archived. -/
def archiveManifests (r : Repairer) : DbFiles :=
  { r.files with dir := { r.files.dir with
      manifests := fun number =>
        if number ∈ r.manifests then none else r.files.dir.manifests number } }

/-- Write a new manifest. -/
def writeDescriptor (c : Comparator) (r : Repairer) : Result DbFiles := do
  let (_, files) ← logAndApplyFiles c r.descriptorVersionSet r.archiveManifests (r.descriptorEdit c)
  return files

/-- What was recovered and what was archived. -/
def report (r : Repairer) : RepairReport where
  recoveredFiles := r.tables.length
  recoveredBytes := (r.tables.map fun t => t.metadata.fileSize).sum
  archivedTableNumbers := r.archived

end Repairer

/-- `repair_db`, with the files that it leaves. -/
def repairDb (c : Comparator) (sizing : Sizing) (dbname : String)
    (listing : List (Option (ℕ × FileType))) (files : DbFiles) :
    Result (RepairReport × DbFiles) := do
  let r ← Repairer.findFiles dbname listing files
  let r := (r.convertLogFilesToTables c).extractMetadata sizing
  let files ← r.writeDescriptor c
  return (r.report, files)

/-! ### Finding the files -/

/-- The number of a listed log. -/
def listedLog : Option (ℕ × FileType) → Option ℕ
  | some (number, .logFile) => some number
  | _ => none

/-- The number of a listed table. -/
def listedTable : Option (ℕ × FileType) → Option ℕ
  | some (number, .tableFile) => some number
  | _ => none

/-- The number of a listed file, unless it is a manifest. -/
def listedNumber : Option (ℕ × FileType) → Option ℕ
  | some (_, .descriptorFile) => none
  | some (number, _) => some number
  | none => none

variable {c : Comparator}

namespace Repairer

/-- What `find_files` has found in a listing. -/
structure Found (listing : List (Option (ℕ × FileType))) (files : DbFiles) (r : Repairer) :
    Prop where
  files : r.files = files
  logs : r.logs = listing.filterMap listedLog
  tableNumbers : r.tableNumbers = listing.filterMap listedTable
  tables : r.tables = []
  next : ∀ bound, r.nextFileNumber ≤ bound ↔
    0 < bound ∧ ∀ number ∈ listing.filterMap listedNumber, number < bound

variable {listing : List (Option (ℕ × FileType))} {files : DbFiles} {r : Repairer}

variable {number : ℕ}

theorem nextFileNumber_pass_le {bound : ℕ} :
    (r.pass number).nextFileNumber ≤ bound ↔ r.nextFileNumber ≤ bound ∧ number < bound := by
  simp only [pass]
  split_ifs <;> omega

theorem Found.addFile (h : Found listing files r) (file : Option (ℕ × FileType)) :
    Found (listing ++ [file]) files (r.addFile file) := by
  have hpass : ∀ number bound, (r.pass number).nextFileNumber ≤ bound ↔
      0 < bound ∧ ∀ n ∈ listing.filterMap listedNumber ++ [number], n < bound := by
    intro number bound
    rw [nextFileNumber_pass_le, h.next, forall_mem_append, forall_mem_singleton, and_assoc]
  rcases file with _ | ⟨number, type⟩
  · exact ⟨h.files, by simp [Repairer.addFile, h.logs, listedLog],
      by simp [Repairer.addFile, h.tableNumbers, listedTable], h.tables,
      by simp [Repairer.addFile, h.next, listedNumber]⟩
  · cases type
    case descriptorFile =>
      exact ⟨h.files, by simp [Repairer.addFile, h.logs, listedLog],
        by simp [Repairer.addFile, h.tableNumbers, listedTable], h.tables,
        by simp [Repairer.addFile, h.next, listedNumber]⟩
    all_goals
      refine ⟨h.files, by simp [Repairer.addFile, pass, h.logs, listedLog],
        by simp [Repairer.addFile, pass, h.tableNumbers, listedTable], h.tables, fun bound => ?_⟩
      rw [filterMap_append]
      exact hpass number bound

theorem found_foldl_addFile (listing : List (Option (ℕ × FileType))) (files : DbFiles) :
    Found listing files (listing.foldl Repairer.addFile { files }) := by
  induction listing using List.reverseRecOn with
  | nil =>
    refine ⟨rfl, rfl, rfl, rfl, fun bound => ⟨fun h => ⟨h, ?_⟩, And.left⟩⟩
    exact fun _ hn => absurd hn not_mem_nil
  | append_singleton listing file ih =>
    rw [foldl_concat]
    exact ih.addFile file

theorem mem_listedNumber
    (h : number ∈ listing.filterMap listedLog ∨ number ∈ listing.filterMap listedTable) :
    number ∈ listing.filterMap listedNumber := by
  simp only [mem_filterMap, ← exists_or, ← and_or_left] at h ⊢
  obtain ⟨file, hfile, hnum⟩ := h
  refine ⟨file, hfile, ?_⟩
  rcases file with _ | ⟨n, type⟩
  · simp [listedLog, listedTable] at hnum
  · cases type <;> simp_all [listedLog, listedTable, listedNumber]

/-- The logs and the tables that were found have smaller numbers. -/
theorem Found.lt_next (h : Found listing files r)
    (hmem : number ∈ r.logs ∨ number ∈ r.tableNumbers) : number < r.nextFileNumber := by
  rw [h.logs, h.tableNumbers] at hmem
  exact ((h.next _).mp le_rfl).2 number (mem_listedNumber hmem)

/-! ### The tables of the logs -/

/-- Adding the tables of some runs of entries. The empty ones get none. -/
structure Added (r : Repairer) (runs : List (List Entry)) (r' : Repairer) : Prop where
  dir : r'.files.dir = r.files.dir
  tables : r'.tables = r.tables
  next : r'.nextFileNumber = r.nextFileNumber + (runs.filter (· ≠ [])).length
  tableNumbers : r'.tableNumbers =
    r.tableNumbers ++ List.range' r.nextFileNumber (runs.filter (· ≠ [])).length
  old : ∀ number < r.nextFileNumber, r'.files.contents number = r.files.contents number
  new : (List.range' r.nextFileNumber (runs.filter (· ≠ [])).length).map r'.files.contents =
    runs.filter (· ≠ [])

private theorem added_cons {entries : List Entry} {runs : List (List Entry)} {r' : Repairer}
    (h : Added ((r.addTable entries).archiveLog number) runs r') :
    Added r (entries :: runs) r' := by
  rcases entries with _ | ⟨first, rest⟩
  · exact ⟨h.dir, h.tables, h.next, h.tableNumbers, h.old, h.new⟩
  · have htab : r.addTable (first :: rest) =
        { r with
          files := r.files.writeTable
            { number := r.nextFileNumber, smallest := first.ik
              largest := ((first :: rest).getLast (by simp)).ik, entries := first :: rest }
          nextFileNumber := r.nextFileNumber + 1
          tableNumbers := r.tableNumbers ++ [r.nextFileNumber] } := by
      simp [addTable, getLast?_eq_some_getLast]
    rw [htab] at h
    have hcont : ∀ n < r.nextFileNumber + 1, r'.files.contents n =
        Function.update r.files.contents r.nextFileNumber (first :: rest) n := h.old
    have hruns : ((first :: rest) :: runs).filter (· ≠ []) =
        (first :: rest) :: runs.filter (· ≠ []) := rfl
    refine ⟨h.dir, h.tables, ?_, ?_, fun n hn => ?_, ?_⟩
    · rw [hruns, length_cons, ← Nat.add_assoc, Nat.add_right_comm]
      exact h.next
    · rw [hruns, length_cons, range'_succ, append_cons]
      exact h.tableNumbers
    · rw [hcont n (by omega), Function.update_of_ne hn.ne]
    · rw [hruns, length_cons, range'_succ, map_cons,
        hcont _ (Nat.lt_succ_self _),
        Function.update_self]
      exact congrArg _ h.new

private theorem logs_addTable (r : Repairer) (entries : List Entry) :
    (r.addTable entries).files.logs = r.files.logs := by
  unfold addTable
  split <;> rfl

/-- **Every log becomes a table**, and no log is left. -/
theorem added_wals {wals : List Wal} (hlogs : r.files.logs = wals.map Wal.file)
    (hnodup : (wals.map Wal.number).Nodup) :
    ∃ r', (wals.map Wal.number).foldl
        (fun r number => (r.convertLogToTable c number).archiveLog number) r = r' ∧
      r'.files.logs = [] ∧ Added r (wals.map fun w => logEntries c w.file.2) r' := by
  induction wals generalizing r with
  | nil => exact ⟨r, rfl, hlogs, rfl, rfl, rfl, (append_nil _).symm, fun _ _ => rfl, rfl⟩
  | cons w wals ih =>
    obtain ⟨hnot, hnodup⟩ := nodup_cons.mp hnodup
    have hconvert : r.convertLogToTable c w.number = r.addTable (logEntries c w.file.2) := by
      rw [convertLogToTable, hlogs, map_cons, Wal.file, lookup_cons_self]
    have hrest : ((r.addTable (logEntries c w.file.2)).archiveLog w.number).files.logs =
        wals.map Wal.file := by
      change (r.addTable _).files.logs.filter _ = _
      rw [logs_addTable, hlogs, map_cons, filter_cons_of_neg (by simp [Wal.file])]
      refine filter_eq_self.mpr fun log hlog => ?_
      obtain ⟨w', hw', rfl⟩ := mem_map.mp hlog
      exact decide_eq_true fun heq => hnot (mem_map.mpr ⟨w', hw', heq⟩)
    obtain ⟨r', hr', hnil, hadded⟩ := ih hrest hnodup
    refine ⟨r', ?_, hnil, added_cons hadded⟩
    rw [map_cons, foldl_cons, hconvert, hr']

/-! ### The entries of the logs -/

theorem replayRecord_of_ok (mem : MemTable c) {b : LogBatch} (hb : b.Ok) :
    replayRecord mem b.record =
      (.ok (), (b.batch.handled.foldl MemTableInserter.handle
        { sequence := b.sequence, mem }).mem) := by
  have hcont : WriteBatch.setContents b.record = .ok (b.batch.setSequence b.sequence) :=
    (b.batch.setSequence b.sequence).setContents_rep
  have hlen : ¬ b.record.length < 12 := not_lt.mpr (b.batch.setSequence b.sequence).header_le
  have hfits : b.sequence < 2 ^ 64 := by
    have hnext := hb.fits
    rw [LogBatch.next, maxSequenceNumber] at hnext
    omega
  simp only [replayRecord, hlen, if_false, hcont, WriteBatch.iterate_setSequence,
    WriteBatch.sequence_setSequence _ hfits]
  rw [WriteBatch.iterate_eq_foldl]

theorem perm_applyRecords (mem : MemTable c) {batches : List LogBatch} (h : ∀ b ∈ batches, b.Ok) :
    (applyRecords replayRecord mem (batches.map LogBatch.record)).2.entries.Perm
      (mem.entries ++ batches.flatMap LogBatch.entries) := by
  induction batches generalizing mem with
  | nil => simp [applyRecords]
  | cons b batches ih =>
    obtain ⟨hb, hrest⟩ := forall_mem_cons.mp h
    rw [map_cons, applyRecords, replayRecord_of_ok mem hb, Outcome.andThen_ok,
      flatMap_cons, ← append_assoc]
    exact (ih _ hrest).trans ((MemTableInserter.perm_foldl_handle _ _).append_right _)

end Repairer

/-- The entries of a log. -/
def Wal.entries (w : Wal) : List Entry := w.batches.flatMap LogBatch.entries

/-- The table of a log has its entries. -/
theorem Wal.perm_logEntries {w : Wal} (h : ∀ b ∈ w.batches, b.Ok) :
    (Repairer.logEntries c w.file.2).Perm w.entries := by
  rw [Repairer.logEntries, w.replay_file]
  exact Repairer.perm_applyRecords ({} : MemTable c) h

theorem sorted_logEntries (c : Comparator) (log : Bytes) :
    (Repairer.logEntries c log).Pairwise fun a b => (icmp c a.ik b.ik).isLE :=
  (replay Repairer.replayRecord ({} : MemTable c) log).2.sorted

namespace Repairer

/-! ### The metadata of the tables -/

variable {sizing : Sizing} {entries : List Entry} {number : ℕ} {r : Repairer}

theorem fileOk_tableInfo (hne : entries ≠ [])
    (hsort : entries.Pairwise fun a b => ikOrd a.ik < ikOrd b.ik)
    (hvalid : ∀ e ∈ entries, e.Valid) :
    FileOk entries (tableInfo sizing number entries).metadata where
  sorted := hsort
  smallest := by
    rw [tableInfo, head?_eq_some_head hne]
    rfl
  largest := by
    rw [tableInfo, getLast?_eq_some_getLast hne]
    rfl
  valid := hvalid

theorem parsedSequence_of_valid {e : Entry} (h : e.Valid) :
    parsedSequence e.ik = some e.sequence := by
  obtain ⟨key, s, t, hs, hik⟩ := h
  have htype : ¬ 1 < keyTypeByte e.ik := by
    rw [hik, keyTypeByte_internalKey hs]
    cases t <;> decide
  have hlen : ¬ e.ik.length < 8 := by
    rw [hik, length_internalKey]
    omega
  rw [parsedSequence, if_neg (not_or.mpr ⟨hlen, htype⟩), Entry.sequence]

private theorem foldl_max_le {l : List ℕ} {n bound : ℕ} :
    l.foldl max n ≤ bound ↔ n ≤ bound ∧ ∀ m ∈ l, m ≤ bound := by
  induction l generalizing n with
  | nil => simp
  | cons m l ih => rw [foldl_cons, ih, max_le_iff, forall_mem_cons, and_assoc]

/-- The largest sequence number of a table. -/
theorem maxSequence_tableInfo_le (hvalid : ∀ e ∈ entries, e.Valid) {bound : ℕ} :
    (tableInfo sizing number entries).maxSequence ≤ bound ↔ ∀ e ∈ entries, e.sequence ≤ bound := by
  have hparsed : (entries.filterMap fun e => parsedSequence e.ik) = entries.map Entry.sequence := by
    rw [← filterMap_eq_map]
    exact filterMap_congr fun e he => parsedSequence_of_valid (hvalid e he)
  rw [tableInfo, hparsed, foldl_max_le]
  simp

/-- Tables with entries are all described. -/
theorem foldl_scanTable {numbers : List ℕ}
    (hne : ∀ number ∈ numbers, r.files.contents number ≠ []) :
    numbers.foldl (scanTable sizing) r =
      { r with tables := r.tables ++ numbers.map fun number =>
          tableInfo sizing number (r.files.contents number) } := by
  induction numbers generalizing r with
  | nil => simp
  | cons number numbers ih =>
    obtain ⟨hfst, hrest⟩ := forall_mem_cons.mp hne
    rw [foldl_cons, scanTable, if_neg (by simpa using hfst)]
    exact (ih (r := { r with tables := r.tables ++ [_] }) hrest).trans (by simp)

/-! ### The new manifest -/

/-- The numbers of an edit and a version set that fit their machine types. -/
structure DescriptorFits (c : Comparator) (r : Repairer) : Prop where
  name : c.name.toUTF8.toList.length < 2 ^ 32
  next : r.descriptorVersionSet.nextFileNumber + 1 < 2 ^ 64
  sequence : r.descriptorVersionSet.lastSequence < 2 ^ 64
  tables : ∀ t ∈ r.tables, t.metadata.Encodable

private theorem next_descriptorVersionSet (hnext : r.nextFileNumber + 1 < 2 ^ 64) :
    r.descriptorVersionSet.nextFileNumber + 1 < 2 ^ 64 := by
  simp only [descriptorVersionSet, VersionSet.setNextFileNumber]
  split_ifs <;> omega

private theorem perm_nextVersion (c : Comparator) (r : Repairer) (dir : Directory) {level : ℕ}
    (hlev : level < numLevels) :
    (((⟨r.descriptorVersionSet, dir⟩ : MetaState).nextVersion c (r.descriptorEdit c)).files
      level).Perm ((r.descriptorEdit c).addedAt level) := by
  rw [MetaState.nextVersion, VersionBuilder.files_edited _ _ _ hlev]
  exact perm_insertionSort _ _

private theorem encodable_stash (hfits : DescriptorFits c r) :
    (r.descriptorVersionSet.stash (r.descriptorEdit c)).Encodable := by
  refine ⟨?_, ?_, ?_, ?_, ?_, ?_, ?_, ?_⟩
  · rintro _ ⟨⟩
    exact hfits.name
  · rintro _ ⟨⟩
    exact Nat.two_pow_pos 64
  · rintro _ ⟨⟩
    exact Nat.two_pow_pos 64
  · rintro _ ⟨⟩
    exact Nat.lt_of_succ_lt hfits.next
  · rintro _ ⟨⟩
    exact hfits.sequence
  · exact fun _ hmem => absurd hmem not_mem_nil
  · exact fun _ hmem => absurd hmem not_mem_nil
  · intro f hf
    obtain ⟨t, ht, rfl⟩ := mem_map.mp hf
    exact ⟨Nat.succ_pos 6, hfits.tables t ht⟩

private theorem encodable_snapshot (hfits : DescriptorFits c r) (dir : Directory) :
    ((MetaState.beforeSnapshot ⟨r.descriptorVersionSet, dir⟩ (r.descriptorEdit c)).vs.snapshotEdit
      c).Encodable := by
  refine ⟨?_, ?_, ?_, ?_, ?_, ?_, ?_, ?_⟩
  · rintro _ ⟨⟩
    exact hfits.name
  · rintro _ ⟨⟩
    exact Nat.two_pow_pos 64
  · rintro _ ⟨⟩
    exact Nat.two_pow_pos 64
  · rintro _ ⟨⟩
    exact hfits.next
  · rintro _ ⟨⟩
    exact hfits.sequence
  · exact fun _ hmem => absurd hmem not_mem_nil
  · exact fun _ hmem => absurd hmem not_mem_nil
  · exact fun _ hmem => absurd hmem not_mem_nil

/-- The recovered version: all tables at level 0. -/
private theorem mirrors_descriptor (c : Comparator) (r : Repairer) (dir : Directory) :
    Mirrors c ((⟨r.descriptorVersionSet, dir⟩ : MetaState).nextVersion c (r.descriptorEdit c))
      ([(MetaState.beforeSnapshot ⟨r.descriptorVersionSet, dir⟩
        (r.descriptorEdit c)).vs.snapshotEdit
        c] ++ [r.descriptorVersionSet.stash (r.descriptorEdit c)]) := by
  refine Mirrors.nextVersion (s := ⟨r.descriptorVersionSet, dir⟩)
    (mirrors_snapshotEdit (sortedVersion_empty c)) fun level f hf => ?_
  rw [flatMap_singleton, addedAt_snapshotEdit] at hf
  split_ifs at hf <;> cases hf

/-- **What `open` finds in the manifest of a repair**: all tables at level 0. -/
theorem writeDescriptor_spec (hfits : DescriptorFits c r) :
    ∃ dir vs, r.writeDescriptor c = .ok { r.files with dir } ∧ VersionSet.recover c dir = .ok vs ∧
      checkComparatorName c vs = .ok () ∧
      vs.lastSequence = r.descriptorVersionSet.lastSequence ∧
      (vs.current.files 0).Perm (r.tables.map TableInfo.metadata) ∧
      ∀ level, 0 < level → vs.current.files level = [] := by
  obtain ⟨s', hok, -⟩ := MetaState.logAndApply_of_no_fault
    ⟨r.descriptorVersionSet, r.archiveManifests.dir⟩ c (r.descriptorEdit c)
  obtain ⟨hlogged, -⟩ := MetaState.logAndApply_new_ok rfl (encodable_snapshot hfits _)
    (encodable_stash hfits) hok
  have hrecover := hlogged.recover rfl c
  have hfiles := mirrors_descriptor c r r.archiveManifests.dir
  have hadded := Lsm.addedAt_map (r.descriptorEdit c) 0 (r.tables.map TableInfo.metadata)
    (map_map ..).symm
  refine ⟨s'.dir, _, ?_, hrecover.trans (if_pos rfl), ?_, ?_, ?_, ?_⟩
  · rw [writeDescriptor, logAndApplyFiles, hok]
    rfl
  · exact if_pos rfl
  · rfl
  · refine (List.Perm.of_eq (hfiles 0).symm).trans ?_
    exact hadded.1 ▸ perm_nextVersion c r _ (by decide)
  · intro level hpos
    refine (hfiles level).symm.trans ?_
    by_cases hlev : level < numLevels
    · exact List.Perm.eq_nil (hadded.2 level hpos.ne' ▸ perm_nextVersion c r _ hlev)
    · rw [MetaState.nextVersion, VersionBuilder.files_saveTo, if_neg hlev]

end Repairer

/-! ### Opening the repaired directory -/

private theorem perm_newLogEdit (v : Version) (number : ℕ) {level : ℕ} (hlev : level < numLevels) :
    ((v.edited c (newLogEdit c number)).files level).Perm (v.files level) := by
  rw [Version.edited, VersionBuilder.files_edited _ _ _ hlev]
  refine (perm_insertionSort _ _).trans (List.Perm.of_eq ?_)
  refine (append_nil _).trans (filter_eq_self.mpr fun f _ => ?_)
  exact decide_eq_true (Finset.notMem_empty _)

/-- An open without logs reads the version of the manifest. -/
theorem openDb_of_no_logs {files : DbFiles} {vs : VersionSet}
    (hrecover : VersionSet.recover c files.dir = .ok vs) (hname : checkComparatorName c vs = .ok ())
    (hlogs : files.logs = []) (sizing : Sizing) {options : OpenOptions}
    (hopts : options.errorIfExists = false) :
    ∃ db, openDb c sizing options files = .ok db ∧ db.mem.entries = [] ∧
      db.files.contents = files.contents ∧ db.vs.lastSequence = vs.lastSequence ∧
      ∀ level < numLevels, (db.vs.current.files level).Perm (vs.current.files level) := by
  have hnone : files.logsToReplay vs = [] := by simp [DbFiles.logsToReplay, hlogs]
  have hdb : recoverDb c sizing options files = .ok (vs, files, {}) := by
    simp only [recoverDb, hrecover, hname, hnone, ok_bind]
    have hsame : { vs with lastSequence := max vs.lastSequence 0 } = vs := by rw [Nat.max_zero]
    exact congrArg (fun vs : VersionSet => Except.ok (vs, files, ({} : MemTable c))) hsame
  obtain ⟨vs', dir, happly, happ⟩ := logAndApplyFiles_eq c
    { vs with nextFileNumber := vs.nextFileNumber + 1 } files (newLogEdit c vs.nextFileNumber)
  have hopen : openDb c sizing options files = startLog c vs files {} := by
    simp [openDb, isSome_current_of_recover hrecover, hopts, hdb]
  refine ⟨_, hopen.trans (startLog_of_ok happly _), rfl, rfl, happ.lastSequence,
    fun level hlev => ?_⟩
  exact happ.current ▸ perm_newLogEdit vs.current vs.nextFileNumber hlev

/-! ### What a repair keeps -/

/-- The runs of entries in the order in which they are read after a repair: the logs, the last
listed one first, and then the tables by decreasing number. -/
def repairOrder (files : DbFiles) (wals : List Wal) : List (List Entry) :=
  (wals.map Wal.entries).reverse ++ (files.tables.insertionSort (· ≥ ·)).map files.contents

/-- What the first run with an entry of a key says of the key is what the newest of all its entries
says. -/
def NewestFirst (runs : List (List Entry)) (E : Set Entry) : Prop :=
  ∀ k, ∀ entries ∈ runs.find? fun entries => entries.any fun e => e.key = k, ∀ r,
    ReadsLatest Entry.key Entry.sequence Entry.live (storeOf entries) k r →
      ReadsLatest Entry.key Entry.sequence Entry.live E k r

/-- A directory with nothing but the live files of a database, and a listing of it. The logs and the
tables are in the order of the listing. -/
structure Repairable (listing : List (Option (ℕ × FileType))) (files : DbFiles) (vs : VersionSet)
    (wals : List Wal) : Prop extends Recoverable files vs wals where
  nonempty : listing ≠ []
  listedLogs : listing.filterMap listedLog = wals.map Wal.number
  listedTables : listing.filterMap listedTable = files.tables
  liveLogs : files.logs = wals.map Wal.file
  liveTables : ∀ number, number ∈ files.tables ↔
    ∃ level < numLevels, ∃ f ∈ vs.current.files level, f.number = number
  logNumbers : (wals.map Wal.number).Nodup
  tableNumbers : files.tables.Nodup
  unique : OnePerSequence Entry.key Entry.sequence (storedIn files vs wals)

/-- The numbers and strings of a repair fit their machine types. -/
structure RepairFits (sizing : Sizing) (listing : List (Option (ℕ × FileType))) (files : DbFiles)
    (vs : VersionSet) (wals : List Wal) : Prop where
  numbers : ∀ number ∈ listing.filterMap listedNumber, number + wals.length + 2 < 2 ^ 64
  keys : ∀ e ∈ storedIn files vs wals, e.ik.length < 2 ^ 32
  tables : ∀ number ∈ files.tables, sizing.finished (files.contents number) < 2 ^ 64
  logs : ∀ w ∈ wals, ∀ entries, entries.Perm w.entries → sizing.finished entries < 2 ^ 64

theorem walEntries_eq (wals : List Wal) : walEntries wals = wals.flatMap Wal.entries := by
  rw [walEntries, walBatches, flatMap_assoc]
  rfl

namespace Repairable

open Repairer

variable {sizing : Sizing} {listing : List (Option (ℕ × FileType))} {files : DbFiles}
  {vs : VersionSet} {wals : List Wal}

section

variable (h : Repairable listing files vs wals)
include h

/-- The entries of the runs are all there is. -/
theorem mem_storedIn {e : Entry} :
    e ∈ storedIn files vs wals ↔ ∃ entries ∈ repairOrder files wals, e ∈ entries := by
  have htabs : e ∈ vs.current.store files.contents ↔
      ∃ number ∈ files.tables, e ∈ files.contents number := by
    constructor
    · rintro ⟨level, hlev, f, hf, he⟩
      exact ⟨f.number, (h.liveTables _).mpr ⟨level, hlev, f, hf, rfl⟩, he⟩
    · rintro ⟨number, hnum, he⟩
      obtain ⟨level, hlev, f, hf, rfl⟩ := (h.liveTables _).mp hnum
      exact ⟨level, hlev, f, hf, he⟩
  rw [storedIn, Set.mem_union, htabs, walEntries_eq, storeOf, Set.mem_ofPred_eq, mem_flatMap,
    or_comm]
  simp [repairOrder, or_and_right, exists_or]

/-- A table of the repaired directory. -/
structure TableOk (sizing : Sizing) (files : DbFiles) (vs : VersionSet) (wals : List Wal)
    (entries : List Entry) : Prop where
  ne_nil : entries ≠ []
  sorted : entries.Pairwise fun a b => ikOrd a.ik < ikOrd b.ik
  valid : ∀ e ∈ entries, e.Valid
  stored : ∀ e ∈ entries, e ∈ storedIn files vs wals
  size : sizing.finished entries < 2 ^ 64

theorem perm_logEntries {w : Wal} (hw : w ∈ wals) :
    (logEntries bytewiseComparator w.file.2).Perm w.entries :=
  Wal.perm_logEntries fun b hb => h.batches b (mem_flatMap.mpr ⟨w, hw, hb⟩)

theorem tableOk_log (hfits : RepairFits sizing listing files vs wals) {w : Wal} (hw : w ∈ wals)
    (hne : logEntries bytewiseComparator w.file.2 ≠ []) :
    TableOk sizing files vs wals (logEntries bytewiseComparator w.file.2) := by
  have hperm := h.perm_logEntries hw
  have hmem : ∀ e ∈ logEntries bytewiseComparator w.file.2, e ∈ walEntries wals := fun e he =>
    walEntries_eq wals ▸ mem_flatMap.mpr ⟨w, hw, hperm.mem_iff.mp he⟩
  have hdist : w.entries.Pairwise fun a b => a.sequence ≠ b.sequence :=
    (pairwise_flatMap.mp (walEntries_eq wals ▸ h.distinct)).1 w hw
  refine ⟨hne, Entry.pairwise_lt ?_ ?_, fun e he => (h.mem_walEntries (hmem e he)).1,
    fun e he => .inr (hmem e he), hfits.logs w hw _ hperm⟩
  · exact (sorted_logEntries bytewiseComparator _).imp fun hle => isLE_icmp_bytewise.mp hle
  · exact (hperm.symm.pairwise hdist fun hne => hne.symm).imp
      fun {a b} hne (_ : a.key = b.key) => hne

theorem tableOk_table (hfits : RepairFits sizing listing files vs wals) {number : ℕ}
    (hnum : number ∈ files.tables) :
    TableOk sizing files vs wals (files.contents number) := by
  obtain ⟨level, hlev, f, hf, rfl⟩ := (h.liveTables _).mp hnum
  have hok := h.order.files level hlev f hf
  refine ⟨?_, hok.sorted, hok.valid, fun e he => .inl ⟨level, hlev, f, hf, he⟩, hfits.tables _ hnum⟩
  obtain ⟨e, he, -⟩ := hok.exists_smallest
  exact ne_nil_of_mem he

/-- The repairer after the logs are converted. -/
structure Converted (listing : List (Option (ℕ × FileType))) (files : DbFiles) (wals : List Wal)
    (r r' : Repairer) : Prop where
  found : Found listing files r
  added : Added r (wals.map fun w => logEntries bytewiseComparator w.file.2) r'
  logs : r'.files.logs = []

theorem converted (dbname : String) :
    ∃ r, findFiles dbname listing files = .ok r ∧
      Converted listing files wals r (r.convertLogFilesToTables bytewiseComparator) := by
  have hfound := found_foldl_addFile listing files
  refine ⟨_, if_neg (by simpa using h.nonempty), ?_⟩
  obtain ⟨r', hr', hlogs, hadded⟩ := @added_wals bytewiseComparator _ wals
    (by rw [hfound.files, h.liveLogs]) h.logNumbers
  rw [convertLogFilesToTables, hfound.logs, h.listedLogs, hr']
  exact ⟨hfound, hadded, hlogs⟩

/-- The numbers of the tables, largest first. -/
private def numberOrder (files : DbFiles) (r r' : Repairer) : List ℕ :=
  (List.range' r.nextFileNumber (r'.nextFileNumber - r.nextFileNumber)).reverse ++
    files.tables.insertionSort (· ≥ ·)

/-- What the scan finds in a table. -/
private def scanned (sizing : Sizing) (r : Repairer) (number : ℕ) : TableInfo :=
  tableInfo sizing number (r.files.contents number)

private theorem sequence_le {e : Entry} (he : e ∈ storedIn files vs wals) :
    e.sequence ≤ maxSequenceNumber := by
  rcases he with he | he
  · exact (h.sequences e he).trans h.lastSequence
  · obtain ⟨-, b, hb, -, hlt⟩ := h.mem_walEntries he
    have := (h.batches b hb).fits
    omega

end

section Converted

variable {r r' : Repairer} {number : ℕ} (h : Repairable listing files vs wals)

section

variable (hr : Converted listing files wals r r')
include h hr

theorem tables_lt (hnum : number ∈ files.tables) : number < r.nextFileNumber := by
  refine hr.found.lt_next (.inr ?_)
  rwa [hr.found.tableNumbers, h.listedTables]

theorem tableNumbers_lt (hnum : number ∈ r'.tableNumbers) : number < r'.nextFileNumber := by
  rw [hr.added.next]
  rw [hr.added.tableNumbers, hr.found.tableNumbers, h.listedTables] at hnum
  rcases mem_append.mp hnum with hnum | hnum
  · exact (h.tables_lt hr hnum).trans_le (Nat.le_add_right _ _)
  · exact (mem_range'_1.mp hnum).2

theorem contents_table (hnum : number ∈ files.tables) :
    r'.files.contents number = files.contents number := by
  rw [hr.added.old number (h.tables_lt hr hnum), hr.found.files]

private theorem perm_numberOrder : r'.tableNumbers.Perm (numberOrder files r r') := by
  rw [hr.added.tableNumbers, hr.found.tableNumbers, h.listedTables, numberOrder, hr.added.next,
    Nat.add_sub_cancel_left]
  exact perm_append_comm.trans ((reverse_perm _).symm.append (perm_insertionSort _ _).symm)

private theorem pairwise_numberOrder : (numberOrder files r r').Pairwise fun a b => b < a := by
  refine pairwise_append.mpr ⟨?_, ?_, fun a ha b hb => ?_⟩
  · exact pairwise_reverse.mpr (pairwise_lt_range' ..)
  · have hnodup := (perm_insertionSort (· ≥ ·) files.tables).nodup_iff.mpr h.tableNumbers
    exact ((pairwise_insertionSort (· ≥ ·) files.tables).and hnodup).imp
      fun ⟨hge, hne⟩ => lt_of_le_of_ne hge hne.symm
  · have hlt := h.tables_lt hr (mem_insertionSort _ |>.mp hb)
    have hge := (mem_range'_1.mp (mem_reverse.mp ha)).1
    omega

/-- The runs of a repair, up to empty ones and the order within them. -/
private theorem readsFirst_numberOrder
    (hne : ∀ number ∈ files.tables, files.contents number ≠ []) {k : Bytes} {o : Option Bytes} :
    ReadsFirst ((numberOrder files r r').map r'.files.contents) k o ↔
      ReadsFirst (repairOrder files wals) k o := by
  have hlogs : ((List.range' r.nextFileNumber
      (r'.nextFileNumber - r.nextFileNumber)).reverse.map r'.files.contents) =
      (wals.map fun w => logEntries bytewiseComparator w.file.2).reverse.filter (· ≠ []) := by
    rw [map_reverse, hr.added.next, Nat.add_sub_cancel_left, hr.added.new, filter_reverse]
  have htabs : (files.tables.insertionSort (· ≥ ·)).map r'.files.contents =
      ((files.tables.insertionSort (· ≥ ·)).map files.contents).filter (· ≠ []) := by
    rw [filter_eq_self.mpr]
    · exact map_congr_left fun number hnum =>
        h.contents_table hr (mem_insertionSort _ |>.mp hnum)
    · intro entries hents
      obtain ⟨number, hnum, rfl⟩ := mem_map.mp hents
      exact decide_eq_true (hne number (mem_insertionSort _ |>.mp hnum))
  rw [numberOrder, map_append, hlogs, htabs, ← filter_append, readsFirst_filter, repairOrder]
  refine readsFirst_congr (rel_append (rel_reverse ?_) ?_)
  · rw [forall₂_map_left_iff, forall₂_map_right_iff, forall₂_same]
    exact fun w hw => h.perm_logEntries hw
  · exact forall₂_same.mpr fun _ _ => List.Perm.refl _

end

variable (hfits : RepairFits sizing listing files vs wals)
  (hr : Converted listing files wals r r')
include h hfits hr

/-- The tables of a repair. -/
theorem tableOk (hnum : number ∈ r'.tableNumbers) :
    TableOk sizing files vs wals (r'.files.contents number) := by
  rw [hr.added.tableNumbers, hr.found.tableNumbers, h.listedTables] at hnum
  rcases mem_append.mp hnum with hnum | hnum
  · rw [h.contents_table hr hnum]
    exact h.tableOk_table hfits hnum
  · have hmem := mem_map_of_mem (f := r'.files.contents) hnum
    rw [hr.added.new] at hmem
    obtain ⟨hrun, hne⟩ := mem_filter.mp hmem
    obtain ⟨w, hw, heq⟩ := mem_map.mp hrun
    rw [← heq] at hne ⊢
    exact h.tableOk_log hfits hw (of_decide_eq_true hne)

/-- The next file number stays in its range. -/
private theorem next_lt : r'.nextFileNumber + 1 < 2 ^ 64 := by
  have hlen : ((wals.map fun w => logEntries bytewiseComparator w.file.2).filter
      (· ≠ [])).length ≤ wals.length :=
    (length_filter_le _ _).trans (length_map _).le
  have hwals : wals.length + 2 < 2 ^ 64 := by
    rcases hwals : wals with _ | ⟨w, rest⟩
    · exact (by norm_num : 0 + 2 < 2 ^ 64)
    · have hlisted : w.number ∈ listing.filterMap listedLog := by
        rw [h.listedLogs, hwals]
        exact mem_cons_self
      have hfst := hfits.numbers w.number (mem_listedNumber (.inl hlisted))
      rw [hwals] at hfst
      omega
  have hnext := (hr.found.next (2 ^ 64 - (wals.length + 2))).mpr
    ⟨by omega, fun number hnum => by have := hfits.numbers number hnum; omega⟩
  rw [hr.added.next]
  omega

private theorem extractMetadata_eq :
    r'.extractMetadata sizing = { r' with tables := r'.tableNumbers.map (scanned sizing r') } := by
  rw [extractMetadata, foldl_scanTable fun number hnum => (h.tableOk hfits hr hnum).ne_nil,
    hr.added.tables, hr.found.tables]
  rfl

private theorem lastSequence_le {bound : ℕ} :
    (r'.extractMetadata sizing).descriptorVersionSet.lastSequence ≤ bound ↔
      ∀ number ∈ r'.tableNumbers, ∀ e ∈ r'.files.contents number, e.sequence ≤ bound := by
  rw [h.extractMetadata_eq hfits hr, descriptorVersionSet, foldl_max_le, map_map]
  simp only [Nat.zero_le, true_and, forall_mem_map]
  exact forall₂_congr fun number hnum =>
    maxSequence_tableInfo_le (h.tableOk hfits hr hnum).valid

private theorem descriptorFits : DescriptorFits bytewiseComparator (r'.extractMetadata sizing) := by
  have hlast := (h.lastSequence_le hfits hr).mpr fun number hnum e he =>
    h.sequence_le ((h.tableOk hfits hr hnum).stored e he)
  have hnext := h.next_lt hfits hr
  rw [h.extractMetadata_eq hfits hr] at hlast ⊢
  refine ⟨by decide +kernel, next_descriptorVersionSet hnext, hlast.trans_lt (by decide),
    fun t ht => ?_⟩
  obtain ⟨number, hnum, rfl⟩ := mem_map.mp ht
  have hok := h.tableOk hfits hr hnum
  have hfile : FileOk _ (scanned sizing r' number).metadata :=
    fileOk_tableInfo hok.ne_nil hok.sorted hok.valid
  obtain ⟨first, hfst, hsmall⟩ := hfile.exists_smallest
  obtain ⟨last, hlast, hlarge⟩ := hfile.exists_largest
  refine ⟨?_, hok.size, ?_, ?_⟩
  · have hlt := h.tableNumbers_lt hr hnum
    exact hlt.trans (Nat.lt_of_succ_lt hnext)
  · exact hsmall ▸ hfits.keys first (hok.stored first hfst)
  · exact hlarge ▸ hfits.keys last (hok.stored last hlast)

end Converted

/-- **What a repair leaves**: no logs, and all tables at level 0. -/
private theorem repairDb_spec (h : Repairable listing files vs wals)
    (hfits : RepairFits sizing listing files vs wals) {dbname : String}
    (hfind : findFiles dbname listing files = .ok r)
    (hr : Converted listing files wals r (r.convertLogFilesToTables bytewiseComparator)) :
    ∃ report files' vs', repairDb bytewiseComparator sizing dbname listing files =
        .ok (report, files') ∧ VersionSet.recover bytewiseComparator files'.dir = .ok vs' ∧
      checkComparatorName bytewiseComparator vs' = .ok () ∧ files'.logs = [] ∧
      files'.contents = (r.convertLogFilesToTables bytewiseComparator).files.contents ∧
      vs'.lastSequence = ((r.convertLogFilesToTables bytewiseComparator).extractMetadata
        sizing).descriptorVersionSet.lastSequence ∧
      (vs'.current.files 0).Perm ((numberOrder files r
        (r.convertLogFilesToTables bytewiseComparator)).map fun number =>
          (scanned sizing (r.convertLogFilesToTables bytewiseComparator) number).metadata) ∧
      ∀ level, 0 < level → vs'.current.files level = [] := by
  obtain ⟨dir, vs', hwrite, hrecover, hname, hlast, hlevel0, hdeeper⟩ :=
    writeDescriptor_spec (h.descriptorFits hfits hr)
  have hperm := h.perm_numberOrder hr
  have hscan := h.extractMetadata_eq hfits hr
  have hlogs := hr.logs
  have hrepair : repairDb bytewiseComparator sizing dbname listing files =
      .ok (((r.convertLogFilesToTables bytewiseComparator).extractMetadata sizing).report,
        { ((r.convertLogFilesToTables bytewiseComparator).extractMetadata sizing).files with
          dir }) := by
    simp only [repairDb, hfind, hwrite, ok_bind]
    rfl
  refine ⟨_, _, vs', hrepair, hrecover, hname, ?_, ?_, hlast, hlevel0.trans ?_, hdeeper⟩
  · rw [hscan]
    exact hlogs
  · rw [hscan]
  · rw [hscan, map_map]
    exact hperm.map _

/-- **A repaired database is read in the order of the repair.** -/
theorem openDb_repairDb (h : Repairable listing files vs wals)
    (hfits : RepairFits sizing listing files vs wals) (dbname : String) {options : OpenOptions}
    (hopts : options.errorIfExists = false) :
    ∃ report files' db, repairDb bytewiseComparator sizing dbname listing files =
        .ok (report, files') ∧ openDb bytewiseComparator sizing options files' = .ok db ∧
      ∀ k, ∃ o, db.get k = .ok o ∧ ReadsFirst (repairOrder files wals) k o := by
  obtain ⟨r, hfind, hr⟩ := h.converted dbname
  obtain ⟨report, files', vs', hrepair, hrecover, hname, hlogs, hcont, hlast,
    hlevel0, hdeeper⟩ :=
    h.repairDb_spec hfits hfind hr
  obtain ⟨db, hopen, hmem, hcont', hseq, hfiles⟩ :=
    openDb_of_no_logs hrecover hname hlogs sizing hopts
  rw [hcont] at hcont'
  generalize r.convertLogFilesToTables bytewiseComparator = r' at *
  have hok : ∀ number ∈ numberOrder files r r',
      TableOk sizing files vs wals (r'.files.contents number) :=
    fun number hnum => h.tableOk hfits hr ((h.perm_numberOrder hr).mem_iff.mpr hnum)
  have hle := (h.lastSequence_le hfits hr).mp (hlast.symm.trans hseq.symm).le
  have hmax : db.vs.lastSequence ≤ maxSequenceNumber := by
    rw [hseq, hlast, h.lastSequence_le hfits hr]
    exact fun number hnum e he => h.sequence_le ((h.tableOk hfits hr hnum).stored e he)
  refine ⟨report, files', db, hrepair, hopen, fun k => ?_⟩
  have hnone : ∀ level < numLevels, 0 < level → db.vs.current.files level = [] :=
    fun level hlev hpos => List.Perm.eq_nil (hdeeper level hpos ▸ hfiles level hlev)
  obtain ⟨o, hget, hfst⟩ := Version.get_level0 ((hfiles 0 (by decide)).trans hlevel0)
    (pairwise_map.mpr (h.pairwise_numberOrder hr)) hnone
    (forall_mem_map.mpr fun number hnum => fileOk_tableInfo (hok number hnum).ne_nil
      (hok number hnum).sorted (hok number hnum).valid) hmax
    (forall_mem_map.mpr fun number hnum =>
      hle number ((h.perm_numberOrder hr).mem_iff.mpr hnum)) k
  refine ⟨o, (OpenedDb.get_eq hmem k).trans (hcont' ▸ hget), ?_⟩
  rw [map_map] at hfst
  exact (h.readsFirst_numberOrder hr fun number hnum =>
    (h.tableOk_table hfits hnum).ne_nil).mp hfst

end Repairable

/-- In runs with the newest entries first, the first with an entry of a key is told to a reader. -/
theorem NewestFirst.readsLatest {runs : List (List Entry)} {E : Set Entry} (h : NewestFirst runs E)
    (hE : ∀ e ∈ E, ∃ entries ∈ runs, e ∈ entries) {k : Bytes} {r : Option Bytes}
    (hr : ReadsFirst runs k r) : ReadsLatest Entry.key Entry.sequence Entry.live E k r := by
  unfold ReadsFirst at hr
  split at hr
  · rename_i hnone
    refine .inr ⟨fun e he hk => ?_, hr⟩
    obtain ⟨entries, hents, he⟩ := hE e he
    exact find?_eq_none.mp hnone entries hents (any_eq_true.mpr ⟨e, he, decide_eq_true hk⟩)
  · rename_i entries hents
    exact h k entries hents r hr

/-- **When a repair keeps the newest version.** A database reads the same before and after a repair
exactly if, in the order of the repair, the newest entries of a key come first. -/
theorem repair_keeps_newest_iff {sizing : Sizing} {listing : List (Option (ℕ × FileType))}
    {files : DbFiles} {vs : VersionSet} {wals : List Wal} (h : Repairable listing files vs wals)
    (hfits : RepairFits sizing listing files vs wals) (dbname : String) {options : OpenOptions}
    (hopts : options.errorIfExists = false) :
    ∃ db report files' db',
      openDb bytewiseComparator sizing options files = .ok db ∧
      repairDb bytewiseComparator sizing dbname listing files = .ok (report, files') ∧
      openDb bytewiseComparator sizing options files' = .ok db' ∧
      (∀ k, ∃ r, db.get k = .ok r ∧
        ReadsLatest Entry.key Entry.sequence Entry.live (storedIn files vs wals) k r) ∧
      ((∀ k, db'.get k = db.get k) ↔
        NewestFirst (repairOrder files wals) (storedIn files vs wals)) := by
  obtain ⟨db, hopen, hmem, hord, hstore, hle, hmax⟩ := h.toRecoverable.openDb_spec sizing hopts
  have hreads := OpenedDb.get_reads hmem hord (hstore ▸ hle) hmax
  rw [hstore] at hreads
  obtain ⟨report, files', db', hrepair, hopen', hreads'⟩ := h.openDb_repairDb hfits dbname hopts
  refine ⟨db, report, files', db', hopen, hrepair, hopen', hreads,
    fun hsame k entries hents r hr => ?_, fun hnewest k => ?_⟩
  · obtain ⟨r₀, hget, hlat⟩ := hreads k
    obtain ⟨r₁, hget', hfst⟩ := hreads' k
    have hrun : ∀ e ∈ storeOf entries, e ∈ storedIn files vs wals := fun e he =>
      h.mem_storedIn.mpr ⟨entries, mem_of_find?_eq_some hents, he⟩
    have huniq : OnePerSequence Entry.key Entry.sequence (storeOf entries) :=
      fun e he e' he' => h.unique e (hrun e he) e' (hrun e' he')
    have heq : r₁ = r₀ := Except.ok.inj (hget'.symm.trans ((hsame k).trans hget))
    rw [ReadsFirst, Option.mem_def.mp hents] at hfst
    rwa [hr.unique huniq hfst, heq]
  · obtain ⟨r₀, hget, hlat⟩ := hreads k
    obtain ⟨r₁, hget', hfst⟩ := hreads' k
    have hlat' := hnewest.readsLatest (fun e he => h.mem_storedIn.mp he) hfst
    rw [hget, hget', hlat'.unique h.unique hlat]

/-! ### Two logs and their listing -/

namespace TwoLogs

open ReadView (versionOf107)

/-- The log with the older value. -/
def older : Wal := ⟨5, [⟨1, WriteBatch.new.put [107] [1]⟩]⟩

/-- The log with the newer value. -/
def newer : Wal := ⟨6, [⟨2, WriteBatch.new.put [107] [2]⟩]⟩

/-- The manifest's record: no tables yet. -/
def edit : VersionEdit :=
  { logNumber := some 5, prevLogNumber := some 0, nextFileNumber := some 7, lastSequence := some 0 }

/-- The directory, with its logs as they are listed. -/
def files (wals : List Wal) : DbFiles where
  dir := .write { current := some 2 } 2 (LogFile.appended {} edit.encode).file.flushed
  logs := wals.map Wal.file

/-- What is recovered from the manifest. -/
def vs : VersionSet :=
  { current := Version.edited bytewiseComparator {} edit, logNumber := 5, nextFileNumber := 7 }

/-- The directory, with the logs in the given order. -/
def listing (wals : List Wal) : List (Option (ℕ × FileType)) :=
  [some (0, .currentFile), some (2, .descriptorFile)] ++ wals.map fun w => some (w.number, .logFile)

private theorem encodable_edit : edit.Encodable :=
  { VersionEdit.encodable_default with
    logNumber := by decide
    prevLogNumber := by decide
    nextFileNumber := by decide
    lastSequence := by decide }

private theorem files_vs (level : ℕ) : vs.current.files level = [] := by
  rw [vs, Version.edited, VersionBuilder.files_saveTo]
  split_ifs <;> rfl

private theorem entries_older : older.entries = [versionOf107 1 [1]] := by decide +kernel

private theorem entries_newer : newer.entries = [versionOf107 2 [2]] := by decide +kernel

private theorem not_mem_store (wals : List Wal) (e : Entry) :
    e ∉ vs.current.store (files wals).contents := by
  rintro ⟨level, -, f, hf, -⟩
  exact absurd (files_vs level ▸ hf) not_mem_nil

variable {wals : List Wal}

section

variable (hwals : wals = [older, newer] ∨ wals = [newer, older])
include hwals

private theorem mem_storedIn {e : Entry} :
    e ∈ storedIn (files wals) vs wals ↔ e = versionOf107 1 [1] ∨ e = versionOf107 2 [2] := by
  rw [storedIn, Set.mem_union, or_iff_right (not_mem_store wals e), storeOf, Set.mem_ofPred_eq,
    walEntries_eq]
  rcases hwals with rfl | rfl <;> simp [entries_older, entries_newer, or_comm]

private theorem ok_batches : ∀ b ∈ walBatches wals, b.Ok := by
  have hfst : LogBatch.Ok ⟨1, WriteBatch.new.put [107] [1]⟩ :=
    ⟨by decide +kernel, by decide +kernel, by decide +kernel⟩
  have hsecond : LogBatch.Ok ⟨2, WriteBatch.new.put [107] [2]⟩ :=
    ⟨by decide +kernel, by decide +kernel, by decide +kernel⟩
  rcases hwals with rfl | rfl <;> simp [walBatches, older, newer, hfst, hsecond]

private theorem ordered_batches : (walBatches wals).Pairwise LogBatch.Ordered := by
  have hordered : LogBatch.Ordered ⟨1, WriteBatch.new.put [107] [1]⟩
      ⟨2, WriteBatch.new.put [107] [2]⟩ := .inl (by decide +kernel)
  rcases hwals with rfl | rfl <;> simp [walBatches, older, newer, hordered, hordered.symm]

/-- Both listings are listings of a directory with live files only. -/
theorem repairable : Repairable (listing wals) (files wals) vs wals where
  manifest := recover_of_record encodable_edit rfl rfl
  comparator := rfl
  numbers level _ f hf := absurd (files_vs level ▸ hf) not_mem_nil
  sequences e he := absurd he (not_mem_store wals e)
  lastSequence := by decide
  order := recencyOrder_of_no_files files_vs
  logs := by rcases hwals with rfl | rfl <;> rfl
  batches := ok_batches hwals
  ordered := ordered_batches hwals
  newer _ _ b hb := absurd hb.1 (not_mem_store wals b)
  nonempty := cons_ne_nil _ _
  listedLogs := by rcases hwals with rfl | rfl <;> rfl
  listedTables := by rcases hwals with rfl | rfl <;> rfl
  liveLogs := rfl
  liveTables number := by
    simp [files_vs, files]
  logNumbers := by rcases hwals with rfl | rfl <;> decide
  tableNumbers := nodup_nil
  unique e he e' he' _ hseq := by
    rw [mem_storedIn hwals] at he he'
    rcases he with rfl | rfl <;> rcases he' with rfl | rfl
    · rfl
    · exact absurd hseq (by decide +kernel)
    · exact absurd hseq (by decide +kernel)
    · rfl

theorem fits : RepairFits ⟨List.length, List.length⟩ (listing wals) (files wals) vs wals where
  numbers := by rcases hwals with rfl | rfl <;> decide
  keys e he := by
    rcases (mem_storedIn hwals).mp he with rfl | rfl <;> decide +kernel
  tables _ hnum := absurd hnum not_mem_nil
  logs w hw entries hperm := by
    have hlen : w.entries.length = 1 := by
      rcases hwals with rfl | rfl <;> rcases mem_pair.mp hw with rfl | rfl <;>
        simp [entries_older, entries_newer]
    exact (hperm.length_eq.trans hlen).trans_lt (by decide)

/-- The newest entry of the two logs. -/
private theorem readsLatest_storedIn :
    ReadsLatest Entry.key Entry.sequence Entry.live (storedIn (files wals) vs wals) [107]
      (some [2]) := by
  refine .inl ⟨versionOf107 2 [2], (mem_storedIn hwals).mpr (.inr rfl), by decide +kernel, ?_,
    by decide +kernel⟩
  intro e he _
  rcases (mem_storedIn hwals).mp he with rfl | rfl <;> decide +kernel

end

private theorem key_versionOf107 (s : ℕ) (value : Bytes) : (versionOf107 s value).key = [107] :=
  userKey_internalKey _ _ _

/-- A run of one entry. -/
private theorem eq_of_readsLatest {s : ℕ} {value : Bytes} {r : Option Bytes}
    (h : ReadsLatest Entry.key Entry.sequence Entry.live (storeOf [versionOf107 s value]) [107] r) :
    r = (versionOf107 s value).live := by
  rcases h with ⟨e, he, -, -, rfl⟩ | ⟨hnone, -⟩
  · rw [mem_singleton.mp he]
  · exact absurd (key_versionOf107 s value) (hnone _ mem_cons_self)

/-- **An older value comes back.** The directory lists the newer log first, and after the repair the
table of the older one is asked first. -/
theorem not_kept_newer_listed_first :
    Repairable (listing [newer, older]) (files [newer, older]) vs [newer, older] ∧
    ∃ db report files' db',
      openDb bytewiseComparator ⟨List.length, List.length⟩ {} (files [newer, older]) = .ok db ∧
      repairDb bytewiseComparator ⟨List.length, List.length⟩ "db" (listing [newer, older])
        (files [newer, older]) = .ok (report, files') ∧
      openDb bytewiseComparator ⟨List.length, List.length⟩ {} files' = .ok db' ∧
      db.get [107] = .ok (some [2]) ∧ db'.get [107] = .ok (some [1]) := by
  have hrepairable := repairable (.inr rfl)
  refine ⟨hrepairable, ?_⟩
  have hopts : ({} : OpenOptions).errorIfExists = false := rfl
  obtain ⟨db, hopen, hmem, hord, hstore, hle, hmax⟩ := hrepairable.openDb_spec _ hopts
  obtain ⟨r, hget, hlat⟩ := OpenedDb.get_reads hmem hord (hstore ▸ hle) hmax [107]
  rw [hstore] at hlat
  obtain ⟨report, files', db', hrepair, hopen', hreads⟩ :=
    hrepairable.openDb_repairDb (fits (.inr rfl)) "db" hopts
  obtain ⟨r', hget', hfst⟩ := hreads [107]
  have hruns : repairOrder (files [newer, older]) [newer, older] =
      [[versionOf107 1 [1]], [versionOf107 2 [2]]] := by
    simp [repairOrder, entries_older, entries_newer, files]
  rw [hruns, readsFirst_cons, if_pos (by decide +kernel)] at hfst
  refine ⟨db, report, files', db', hopen, hrepair, hopen', ?_, ?_⟩
  · rw [hget, hlat.unique hrepairable.unique (readsLatest_storedIn (.inr rfl))]
  · have hlive : (versionOf107 1 [1]).live = some [1] := by decide +kernel
    rw [hget', eq_of_readsLatest hfst, hlive]

/-- When the older log is listed first, nothing changes. -/
theorem kept_older_listed_first :
    ∃ db report files' db',
      openDb bytewiseComparator ⟨List.length, List.length⟩ {} (files [older, newer]) = .ok db ∧
      repairDb bytewiseComparator ⟨List.length, List.length⟩ "db" (listing [older, newer])
        (files [older, newer]) = .ok (report, files') ∧
      openDb bytewiseComparator ⟨List.length, List.length⟩ {} files' = .ok db' ∧
      ∀ k, db'.get k = db.get k := by
  have hopts : ({} : OpenOptions).errorIfExists = false := rfl
  obtain ⟨db, report, files', db', hopen, hrepair, hopen', -, hiff⟩ :=
    repair_keeps_newest_iff (repairable (.inl rfl)) (fits (.inl rfl)) "db" hopts
  refine ⟨db, report, files', db', hopen, hrepair, hopen', hiff.mpr ?_⟩
  intro k entries hents r hr
  have hruns : repairOrder (files [older, newer]) [older, newer] =
      [[versionOf107 2 [2]], [versionOf107 1 [1]]] := by
    simp [repairOrder, entries_older, entries_newer, files]
  rw [hruns, Option.mem_def, find?_cons, find?_cons] at hents
  by_cases hk : k = [107]
  · subst hk
    simp only [any_cons, key_versionOf107, decide_true, Bool.true_or, Option.some.injEq] at hents
    subst hents
    have hlive : (versionOf107 2 [2]).live = some [2] := by decide +kernel
    rw [eq_of_readsLatest hr, hlive]
    exact readsLatest_storedIn (.inl rfl)
  · simp [key_versionOf107, Ne.symm hk] at hents

end TwoLogs

end PulsearcDb
