import PulsearcDb.DbImpl.Open

/-!
# What is read after an open

An open gives the entries of the logs a table of their own on top of the version.

`Recoverable` says what a directory has to be for an open to be faithful: the version of the
manifest is newest first up to copies, and the logs are so above the tables.
-/

namespace PulsearcDb

open Recency Log List

/-! ### The two edits of an open -/

section Edits

variable {sizing : Sizing} {vs : VersionSet} {contents : ℕ → List Entry} {entries : List Entry}
  {first last : Entry}

theorem tops_newLogEdit (v : Version) (c : Comparator) (number : ℕ) :
    Lsm.Tops v contents (newLogEdit c number) 0 [] contents where
  puts :=
    { level_lt := by decide
      addedAt := rfl
      addedAt_of_ne := fun _ _ => rfl
      not_deletes := fun _ hf => absurd hf not_mem_nil }
  keeps := rfl
  unchanged _ _ _ _ := rfl
  files _ hf := absurd hf not_mem_nil
  larger _ hf := absurd hf not_mem_nil
  single _ hf := absurd hf not_mem_nil
  apart _ := List.Pairwise.nil
  newer _ hf := absurd hf not_mem_nil
  beside _ _ hf := absurd hf not_mem_nil

/-- **The table of the recovered entries goes on top.** -/
theorem tops_recoveredEdit (hold : RecencyOrder vs.current contents)
    (hfresh : ∀ level < numLevels, ∀ f ∈ vs.current.files level, f.number < vs.nextFileNumber)
    (hfst : entries.head? = some first) (hlast : entries.getLast? = some last)
    (hsort : entries.Pairwise fun a b => ikOrd a.ik < ikOrd b.ik)
    (hv : ∀ e ∈ entries, e.Valid)
    (hnewer : Shadows Entry.key Entry.sequence (storeOf entries)
      (vs.current.store contents \ storeOf entries)) :
    Lsm.Tops vs.current contents (recoveredEdit bytewiseComparator sizing vs entries first last)
      (vs.current.pickLevelForMemtableOutput bytewiseComparator first.key last.key)
      [(recoveredTable vs entries first last).metadata sizing]
      (Function.update contents vs.nextFileNumber entries) := by
  have hok : FileOk (recoveredTable vs entries first last).entries
      ((recoveredTable vs entries first last).metadata sizing) :=
    ⟨hsort, by rw [recoveredTable, hfst]; rfl, by rw [recoveredTable, hlast]; rfl, hv⟩
  exact Lsm.tops_table (t := recoveredTable vs entries first last) (hold.files 0 (by decide)) hfresh
    hok hnewer rfl rfl

theorem flushRecovered_spec {files : DbFiles} {mem : MemTable bytewiseComparator}
    (hold : RecencyOrder vs.current files.contents)
    (hfresh : ∀ level < numLevels, ∀ f ∈ vs.current.files level, f.number < vs.nextFileNumber)
    (hsort : mem.entries.Pairwise fun a b => ikOrd a.ik < ikOrd b.ik)
    (hv : ∀ e ∈ mem.entries, e.Valid)
    (hnewer : Shadows Entry.key Entry.sequence (storeOf mem.entries)
      (vs.current.store files.contents \ storeOf mem.entries)) :
    ∃ vs' files' mem', flushRecovered bytewiseComparator sizing vs files mem =
        .ok (vs', files', mem') ∧ mem'.entries = [] ∧ vs'.lastSequence = vs.lastSequence ∧
      RecencyOrder vs'.current files'.contents ∧
      vs'.current.store files'.contents =
        vs.current.store files.contents ∪ storeOf mem.entries := by
  rcases flushRecovered_cases bytewiseComparator sizing vs files mem with
    ⟨hnil, heq⟩ | ⟨first, last, vs', files', hfst, hlast, heq, happly⟩
  · refine ⟨vs, files, mem, heq, hnil, rfl, hold, ?_⟩
    simp [hnil, storeOf]
  · have htops := @tops_recoveredEdit sizing _ _ _ _ _ hold hfresh hfst hlast hsort hv hnewer
    obtain ⟨dir, rfl, happ⟩ := applied_of_ok happly
    have hcur : vs'.current = vs.current.edited bytewiseComparator _ := happ.current
    refine ⟨vs', _, {}, heq, rfl, happ.lastSequence, ?_, ?_⟩
    · rw [hcur]
      exact htops.recencyOrder hold
    · rw [hcur]
      ext e
      refine htops.mem_store.trans (or_congr_right ?_)
      simp only [mem_singleton, exists_eq_left]
      exact Iff.of_eq (congrArg (e ∈ storeOf ·) (Function.update_self _ _ _))

theorem startLog_spec {files : DbFiles} (mem : MemTable bytewiseComparator)
    (hold : RecencyOrder vs.current files.contents) :
    ∃ db, startLog bytewiseComparator vs files mem = .ok db ∧ db.mem = mem ∧
      db.vs.lastSequence = vs.lastSequence ∧ RecencyOrder db.vs.current db.files.contents ∧
      db.vs.current.store db.files.contents = vs.current.store files.contents := by
  obtain ⟨vs', dir, happly, happ⟩ := logAndApplyFiles_eq bytewiseComparator
    { vs with nextFileNumber := vs.nextFileNumber + 1 } files
    (newLogEdit bytewiseComparator vs.nextFileNumber)
  have htops : Lsm.Tops vs.current files.contents
      (newLogEdit bytewiseComparator vs.nextFileNumber) 0 [] files.contents := tops_newLogEdit _ _ _
  have hcur : vs'.current = vs.current.edited bytewiseComparator _ := happ.current
  refine ⟨_, startLog_of_ok happly mem, rfl, happ.lastSequence, ?_, ?_⟩
  · rw [hcur]
    exact htops.recencyOrder hold
  · rw [hcur]
    ext e
    exact htops.mem_store.trans (or_iff_left (by simp))

end Edits
/-! ### Logs of batches -/

/-- A batch in a log, under the sequence number of its record. -/
structure LogBatch where
  sequence : ℕ
  batch : WriteBatch

namespace LogBatch

/-- The bytes of its log record. -/
def record (b : LogBatch) : Bytes := b.batch.contentsWithSequence b.sequence

/-- What a replay puts into the memtable. -/
def entries (b : LogBatch) : List Entry :=
  WriteBatchRecord.entriesFrom b.sequence b.batch.handled

/-- The sequence number behind those of the batch. -/
def next (b : LogBatch) : ℕ := b.sequence + b.batch.handled.length

/-- The batch is well formed and its sequence numbers are ones. -/
structure Ok (b : LogBatch) : Prop where
  valid : b.batch.Valid
  pos : 0 < b.next
  fits : b.next ≤ maxSequenceNumber + 1

/-- One of two batches has the larger sequence numbers. -/
def Ordered (a b : LogBatch) : Prop := a.next ≤ b.sequence ∨ b.next ≤ a.sequence

theorem Ordered.symm {a b : LogBatch} (h : Ordered a b) : Ordered b a := Or.symm h

end LogBatch

/-- A log file with its batches. -/
structure Wal where
  number : ℕ
  batches : List LogBatch

/-- The log file after its batches were written. -/
def Wal.logFile (w : Wal) : LogFile := (w.batches.map LogBatch.record).foldl LogFile.appended {}

/-- The log as a file of the directory. -/
def Wal.file (w : Wal) : ℕ × Bytes := (w.number, w.logFile.file.flushed)

/-- The batches of some logs. -/
def walBatches (wals : List Wal) : List LogBatch := wals.flatMap Wal.batches

/-- The entries of some logs. -/
def walEntries (wals : List Wal) : List Entry := (walBatches wals).flatMap LogBatch.entries

private theorem holds_foldl_appended (records : List Bytes) :
    (records.foldl LogFile.appended {}).Holds records ∧
      (records.foldl LogFile.appended {}).file.buffer = [] := by
  induction records using List.reverseRecOn with
  | nil => exact ⟨LogFile.holds_empty, rfl⟩
  | append_singleton records record ih =>
    rw [foldl_concat]
    exact ⟨ih.1.appended record, rfl⟩

/-- The replay of a log runs the body on the records of its batches. -/
theorem Wal.replay_file {σ : Type} (w : Wal) (body : σ → Bytes → Outcome σ) (st : σ) :
    replay body st w.file.2 = applyRecords body st (w.batches.map LogBatch.record) := by
  obtain ⟨hholds, hbuf⟩ := holds_foldl_appended (w.batches.map LogBatch.record)
  exact hholds.replay hbuf body st

theorem WriteBatchRecord.mem_entriesFrom {records : List WriteBatchRecord} {sequence : ℕ}
    {e : Entry} (h : e ∈ entriesFrom sequence records)
    (hfits : sequence + records.length ≤ maxSequenceNumber + 1) :
    sequence ≤ e.sequence ∧ e.sequence < sequence + records.length ∧ e.Valid := by
  induction records generalizing sequence with
  | nil => cases h
  | cons record records ih =>
    rw [length_cons] at hfits ⊢
    rcases mem_cons.mp h with rfl | h
    · have hle : sequence ≤ maxSequenceNumber := by omega
      have heq : (record.toEntry sequence).sequence = sequence := keySequence_toEntry hle record
      refine ⟨heq.ge, by omega, ?_⟩
      cases record with
      | delete key => exact ⟨key, sequence, .deletion, hle, rfl⟩
      | put key value => exact ⟨key, sequence, .value, hle, rfl⟩
    · obtain ⟨hle, hlt, hv⟩ := ih h (by omega)
      exact ⟨by omega, by omega, hv⟩

theorem WriteBatchRecord.pairwise_entriesFrom {records : List WriteBatchRecord} {sequence : ℕ}
    (hfits : sequence + records.length ≤ maxSequenceNumber + 1) :
    (entriesFrom sequence records).Pairwise fun a b => a.sequence < b.sequence := by
  induction records generalizing sequence with
  | nil => exact List.Pairwise.nil
  | cons record records ih =>
    rw [length_cons] at hfits
    refine pairwise_cons.mpr ⟨fun e he => ?_, ih (by omega)⟩
    have hle : sequence ≤ maxSequenceNumber := by omega
    have heq : (record.toEntry sequence).sequence = sequence := keySequence_toEntry hle record
    have hlater := (mem_entriesFrom he (by omega)).1
    omega

namespace LogRecovery

variable {c : Comparator}

/-- The recovery after some batches. -/
def afterBatches (st : LogRecovery c) (batches : List LogBatch) : LogRecovery c :=
  batches.foldl (fun st b => st.after b.sequence b.batch.handled) st

theorem applyRecords_batches (st : LogRecovery c) {batches : List LogBatch}
    (h : ∀ b ∈ batches, b.Ok) :
    applyRecords replayRecord st (batches.map LogBatch.record) =
      (.ok (), st.afterBatches batches) := by
  induction batches generalizing st with
  | nil => rfl
  | cons b batches ih =>
    obtain ⟨hb, hrest⟩ := forall_mem_cons.mp h
    have hfits : b.sequence + b.batch.handled.length < 2 ^ 64 := hb.fits.trans_lt (by decide)
    rw [map_cons, applyRecords, LogBatch.record,
      st.replayRecord_of_valid hb.valid hb.pos hfits, Outcome.andThen_ok, ih _ hrest]
    rfl

theorem perm_afterBatches (st : LogRecovery c) (batches : List LogBatch) :
    (st.afterBatches batches).mem.entries.Perm
      (st.mem.entries ++ batches.flatMap LogBatch.entries) := by
  induction batches generalizing st with
  | nil => simp [afterBatches]
  | cons b batches ih =>
    refine (ih _).trans ?_
    rw [flatMap_cons, ← append_assoc]
    exact (MemTableInserter.perm_foldl_handle _ _).append_right _

/-- The largest sequence number is that of the batches. -/
theorem maxSequence_afterBatches (st : LogRecovery c) {batches : List LogBatch} {n : ℕ} :
    (st.afterBatches batches).maxSequence ≤ n ↔
      st.maxSequence ≤ n ∧ ∀ b ∈ batches, b.next ≤ n + 1 := by
  induction batches generalizing st with
  | nil => simp [afterBatches]
  | cons b batches ih =>
    have hmax : (st.after b.sequence b.batch.handled).maxSequence =
        max st.maxSequence (b.next - 1) := rfl
    rw [afterBatches, foldl_cons, ← afterBatches, ih, hmax, max_le_iff, forall_mem_cons,
      and_assoc, Nat.sub_le_iff_le_add]

end LogRecovery

/-! ### Replaying the logs of an open -/

private def sortedWals (wals : List Wal) : List Wal :=
  wals.insertionSort fun a b => a.number ≤ b.number

private theorem perm_sortedWals (wals : List Wal) :
    (walBatches (sortedWals wals)).Perm (walBatches wals) :=
  (perm_insertionSort _ wals).flatMap_right _

private theorem logsToReplay_eq {files : DbFiles} {vs : VersionSet} {wals : List Wal}
    (hlogs : (files.logs.filter fun log => vs.logNumber ≤ log.1 || log.1 == vs.prevLogNumber) =
      wals.map Wal.file) :
    files.logsToReplay vs = (sortedWals wals).map Wal.file := by
  rw [DbFiles.logsToReplay, hlogs, sortedWals]
  exact (map_insertionSort (fun a b : Wal => a.number ≤ b.number)
    (fun a b : ℕ × Bytes => a.1 ≤ b.1) Wal.file wals fun _ _ _ _ => Iff.rfl).symm

/-- **Logs of well-formed batches are replayed without an error**, and all of their entries are
recovered. -/
theorem recoverLogs_of_wals {c : Comparator} {files : DbFiles} {vs : VersionSet} {wals : List Wal}
    (hlogs : (files.logs.filter fun log => vs.logNumber ≤ log.1 || log.1 == vs.prevLogNumber) =
      wals.map Wal.file) (hbatches : ∀ b ∈ walBatches wals, b.Ok) (paranoid : Bool) :
    ∃ recovery, recoverLogs c paranoid (files.logsToReplay vs) = .ok recovery ∧
      recovery.mem.entries.Perm (walEntries wals) ∧
      ∀ n, recovery.maxSequence ≤ n ↔ ∀ b ∈ walBatches wals, b.next ≤ n + 1 := by
  have hperm := perm_sortedWals wals
  have hok : ∀ b ∈ walBatches (sortedWals wals), b.Ok := fun b hb =>
    hbatches b (hperm.mem_iff.mp hb)
  have hholds : List.Forall₂ (fun log held => log.Holds held ∧ log.file.buffer = [])
      ((sortedWals wals).map Wal.logFile)
      ((sortedWals wals).map fun w => w.batches.map LogBatch.record) := by
    rw [forall₂_map_left_iff, forall₂_map_right_iff, forall₂_same]
    exact fun w _ => holds_foldl_appended _
  have hflat : ((sortedWals wals).map fun w => w.batches.map LogBatch.record).flatten =
      (walBatches (sortedWals wals)).map LogBatch.record := by
    rw [walBatches, map_flatMap, flatMap_def]
  have hrecover := LogRecovery.recoverLogFiles_of_ok hholds
    (hflat ▸ ({} : LogRecovery c).applyRecords_batches hok) paranoid
  have hbytes : (files.logsToReplay vs).map Prod.snd =
      ((sortedWals wals).map Wal.logFile).map fun log => log.file.flushed := by
    rw [logsToReplay_eq hlogs, map_map, map_map]
    rfl
  refine ⟨_, by rw [recoverLogs, hbytes, hrecover], ?_, fun n => ?_⟩
  · refine (LogRecovery.perm_afterBatches _ _).trans ?_
    rw [walEntries]
    exact hperm.flatMap_right _
  · rw [LogRecovery.maxSequence_afterBatches]
    simp only [Nat.zero_le, true_and, hperm.mem_iff]

/-! ### Faithful opens -/

/-- A directory with an intact manifest and tables, and logs of well-formed batches. Every log entry
is newer than the table entries of its key, except for those that are copies of log entries. -/
structure IntactFiles (files : DbFiles) (vs : VersionSet) (wals : List Wal) : Prop where
  manifest : VersionSet.recover bytewiseComparator files.dir = .ok vs
  comparator : checkComparatorName bytewiseComparator vs = .ok ()
  numbers : ∀ level < numLevels, ∀ f ∈ vs.current.files level, f.number < vs.nextFileNumber
  lastSequence : vs.lastSequence ≤ maxSequenceNumber
  order : RecencyOrder vs.current files.contents
  logs : (files.logs.filter fun log => vs.logNumber ≤ log.1 || log.1 == vs.prevLogNumber) =
    wals.map Wal.file
  batches : ∀ b ∈ walBatches wals, b.Ok
  ordered : (walBatches wals).Pairwise LogBatch.Ordered
  newer : Shadows Entry.key Entry.sequence (storeOf (walEntries wals))
    (vs.current.store files.contents \ storeOf (walEntries wals))

/-- The manifest also knows the sequence numbers of the tables. -/
structure Recoverable (files : DbFiles) (vs : VersionSet) (wals : List Wal) : Prop
    extends IntactFiles files vs wals where
  sequences : ∀ e ∈ vs.current.store files.contents, e.sequence ≤ vs.lastSequence

/-- The entries of the tables and of the logs. -/
def storedIn (files : DbFiles) (vs : VersionSet) (wals : List Wal) : Set Entry :=
  vs.current.store files.contents ∪ storeOf (walEntries wals)

namespace IntactFiles

variable {files : DbFiles} {vs : VersionSet} {wals : List Wal} (h : IntactFiles files vs wals)
include h

/-- The logs are replayed without an error. -/
theorem recoverLogs_eq (paranoid : Bool) :
    ∃ recovery, recoverLogs bytewiseComparator paranoid (files.logsToReplay vs) = .ok recovery ∧
      recovery.mem.entries.Perm (walEntries wals) ∧
      ∀ n, recovery.maxSequence ≤ n ↔ ∀ b ∈ walBatches wals, b.next ≤ n + 1 :=
  recoverLogs_of_wals h.logs h.batches paranoid

theorem mem_walEntries {e : Entry} (he : e ∈ walEntries wals) :
    e.Valid ∧ ∃ b ∈ walBatches wals, b.sequence ≤ e.sequence ∧ e.sequence < b.next := by
  obtain ⟨b, hb, he⟩ := mem_flatMap.mp he
  obtain ⟨hle, hlt, hv⟩ := WriteBatchRecord.mem_entriesFrom he (h.batches b hb).fits
  exact ⟨hv, b, hb, hle, hlt⟩

theorem distinct : (walEntries wals).Pairwise fun a b => a.sequence ≠ b.sequence := by
  refine pairwise_flatMap.mpr ⟨fun b hb => ?_, ?_⟩
  · exact (WriteBatchRecord.pairwise_entriesFrom (h.batches b hb).fits).imp fun hlt => hlt.ne
  · refine h.ordered.imp_of_mem fun {a b} ha hb hordered e he e' he' => ?_
    have hfst := WriteBatchRecord.mem_entriesFrom he (h.batches a ha).fits
    have hsecond := WriteBatchRecord.mem_entriesFrom he' (h.batches b hb).fits
    rw [LogBatch.Ordered, LogBatch.next, LogBatch.next] at hordered
    omega

theorem sorted_mem {mem : MemTable bytewiseComparator}
    (hperm : mem.entries.Perm (walEntries wals)) :
    mem.entries.Pairwise fun a b => ikOrd a.ik < ikOrd b.ik := by
  refine Entry.pairwise_lt (mem.sorted.imp fun hle => isLE_icmp_bytewise.mp hle) ?_
  exact (hperm.symm.pairwise h.distinct fun hne => hne.symm).imp
    fun {a b} hne (_ : a.key = b.key) => hne

/-- What an open leaves: an empty memtable and, in order, the tables with everything stored. Its
`last_sequence` is that of the manifest or of the last batch. -/
theorem openDb_spec (sizing : Sizing) {options : OpenOptions}
    (hopts : options.errorIfExists = false) :
    ∃ db, openDb bytewiseComparator sizing options files = .ok db ∧ db.mem.entries = [] ∧
      RecencyOrder db.vs.current db.files.contents ∧
      db.vs.current.store db.files.contents = storedIn files vs wals ∧
      ∀ n, db.vs.lastSequence ≤ n ↔
        vs.lastSequence ≤ n ∧ ∀ b ∈ walBatches wals, b.next ≤ n + 1 := by
  obtain ⟨recovery, hrecovery, hperm, hmax⟩ := h.recoverLogs_eq options.paranoidChecks
  have hs : storeOf recovery.mem.entries = storeOf (walEntries wals) :=
    Set.ext fun e => hperm.mem_iff
  obtain ⟨vs', files', mem', hflush, hmem', hlast', hord', hs'⟩ :=
    @flushRecovered_spec sizing { vs with lastSequence := max vs.lastSequence recovery.maxSequence }
      files recovery.mem h.order h.numbers (h.sorted_mem hperm)
      (fun e he => (h.mem_walEntries (hperm.mem_iff.mp he)).1) (hs ▸ h.newer)
  obtain ⟨db, hdb, hmem, hlast, hord, hstored⟩ := startLog_spec mem' hord'
  have hrecover : recoverDb bytewiseComparator sizing options files = .ok (vs', files', mem') := by
    simp only [recoverDb, h.manifest, h.comparator, hrecovery, ok_bind, hflush]
  refine ⟨db, ?_, hmem ▸ hmem', hord, ?_, fun n => ?_⟩
  · simp [openDb, isSome_current_of_recover h.manifest, hopts, hrecover, hdb]
  · rw [hstored, hs', hs]
    rfl
  · rw [hlast, hlast', max_le_iff, hmax]

end IntactFiles

/-- The sequence numbers of everything stored are known after an open. -/
theorem Recoverable.openDb_spec {files : DbFiles} {vs : VersionSet} {wals : List Wal}
    (h : Recoverable files vs wals) (sizing : Sizing) {options : OpenOptions}
    (hopts : options.errorIfExists = false) :
    ∃ db, openDb bytewiseComparator sizing options files = .ok db ∧ db.mem.entries = [] ∧
      RecencyOrder db.vs.current db.files.contents ∧
      db.vs.current.store db.files.contents = storedIn files vs wals ∧
      (∀ e ∈ storedIn files vs wals, e.sequence ≤ db.vs.lastSequence) ∧
      db.vs.lastSequence ≤ maxSequenceNumber := by
  obtain ⟨db, hopen, hmem, hord, hs, hlast⟩ := h.toIntactFiles.openDb_spec sizing hopts
  obtain ⟨hman, hbatches⟩ := (hlast _).mp le_rfl
  refine ⟨db, hopen, hmem, hord, hs, ?_, ?_⟩
  · rintro e (he | he)
    · exact (h.sequences e he).trans hman
    · obtain ⟨-, b, hb, -, hlt⟩ := h.mem_walEntries he
      exact Nat.le_of_lt_succ (hlt.trans_le (hbatches b hb))
  · exact (hlast _).mpr ⟨h.lastSequence, fun b hb => (h.batches b hb).fits⟩

theorem OpenedDb.get_eq {db : OpenedDb bytewiseComparator} (hmem : db.mem.entries = [])
    (k : Bytes) :
    db.get k = db.vs.current.get bytewiseComparator k (lookupKey k db.vs.lastSequence)
      (lookupIn db.files.contents) := by
  simp [OpenedDb.get, ReadView.get, MemTable.get, MemTable.seek, hmem]

/-- A database whose levels are in order reads the newest of its entries. -/
theorem OpenedDb.get_reads {db : OpenedDb bytewiseComparator} (hmem : db.mem.entries = [])
    (hord : RecencyOrder db.vs.current db.files.contents)
    (hle : ∀ e ∈ db.vs.current.store db.files.contents, e.sequence ≤ db.vs.lastSequence)
    (hmax : db.vs.lastSequence ≤ maxSequenceNumber) (k : Bytes) :
    ∃ r, db.get k = .ok r ∧ ReadsLatest Entry.key Entry.sequence Entry.live
      (db.vs.current.store db.files.contents) k r := by
  obtain ⟨o, ho, hget⟩ := hord.get_spec
    (fun level hlev f hf => (hord.files level hlev f hf).lookupOk) hmax k
  exact ⟨_, (OpenedDb.get_eq hmem k).trans hget, Reads.latest hle ⟨o, ho, rfl⟩⟩

/-- A `get` after an open reads the entry with the largest sequence number over the tables and the
logs, and `last_sequence` is at least every sequence number stored. -/
def OpensFaithfully (sizing : Sizing) (options : OpenOptions) (files : DbFiles) (vs : VersionSet)
    (wals : List Wal) : Prop :=
  ∃ db, openDb bytewiseComparator sizing options files = .ok db ∧
    (∀ k, ∃ r, db.get k = .ok r ∧
      ReadsLatest Entry.key Entry.sequence Entry.live (storedIn files vs wals) k r) ∧
    ∀ e ∈ storedIn files vs wals, e.sequence ≤ db.vs.lastSequence

/-- **An open is faithful** when the manifest knows the sequence numbers of the tables. -/
theorem openDb_faithful {files : DbFiles} {vs : VersionSet} {wals : List Wal}
    (h : Recoverable files vs wals) (sizing : Sizing) {options : OpenOptions}
    (hopts : options.errorIfExists = false) :
    OpensFaithfully sizing options files vs wals := by
  obtain ⟨db, hopen, hmem, hord, hs, hle, hmax⟩ := h.openDb_spec sizing hopts
  rw [← hs] at hle
  obtain hreads := OpenedDb.get_reads hmem hord hle hmax
  rw [hs] at hle hreads
  exact ⟨db, hopen, hreads, hle⟩

/-! ### Two directories with one table -/

namespace InterruptedOpen

open ReadView (versionOf107)

/-- A table with two versions of a key. -/
def table : FileMetaData := ⟨7, 1, internalKey [107] 2 .value, internalKey [107] 1 .value⟩

/-- The entries of the table. -/
def contents : ℕ → List Entry := fun _ => [versionOf107 2 [2], versionOf107 1 [1]]

/-- The manifest's record of the table. -/
def edit (lastSequence : ℕ) : VersionEdit :=
  { logNumber := some 5, prevLogNumber := some 0, nextFileNumber := some 8,
    lastSequence := some lastSequence, newFiles := [⟨2, table⟩] }

/-- The log whose entries are in the table of an open that was interrupted before its second
edit. -/
def wal : Wal :=
  { number := 5, batches := [⟨1, WriteBatch.new.put [107] [1]⟩, ⟨2, WriteBatch.new.put [107] [2]⟩] }

/-- The directory with the table and some logs. -/
def files (lastSequence : ℕ) (wals : List Wal) : DbFiles where
  dir := .write { current := some 2 } 2
    (LogFile.appended {} (edit lastSequence).encode).file.flushed
  logs := wals.map Wal.file
  tables := [7]
  contents

/-- What is recovered from the manifest. -/
def vs (lastSequence : ℕ) : VersionSet :=
  { current := Version.edited bytewiseComparator {} (edit lastSequence), logNumber := 5,
    nextFileNumber := 8, lastSequence }

variable {lastSequence : ℕ} {wals : List Wal}

private theorem encodable_edit (hlast : lastSequence < 2 ^ 64) : (edit lastSequence).Encodable :=
  { VersionEdit.encodable_default with
    logNumber := by simp [edit]
    prevLogNumber := by simp [edit]
    nextFileNumber := by simp [edit]
    lastSequence := fun n hn => Option.mem_some_iff.mp hn ▸ hlast
    newFiles := forall_mem_singleton.mpr
      ⟨by decide, by decide, by decide, by decide +kernel, by decide +kernel⟩ }

private theorem fileOk_table : FileOk (contents table.number) table where
  sorted := by
    refine pairwise_pair.mpr ?_
    decide +kernel
  smallest := rfl
  largest := rfl
  valid e he := by
    rcases mem_pair.mp he with rfl | rfl
    · exact ⟨[107], 2, .value, by decide, rfl⟩
    · exact ⟨[107], 1, .value, by decide, rfl⟩

private theorem tops_edit :
    Lsm.Tops {} contents (edit lastSequence) 2 [table] contents where
  puts :=
    { level_lt := by decide
      addedAt := rfl
      addedAt_of_ne := (Lsm.addedAt_map (edit lastSequence) 2 [table] rfl).2
      not_deletes := fun _ _ ⟨_, hd, _⟩ => absurd hd not_mem_nil }
  keeps := rfl
  unchanged _ _ _ _ := rfl
  files := forall_mem_singleton.mpr fileOk_table
  larger _ _ _ _ _ hg := absurd hg not_mem_nil
  single := forall_mem_singleton.mpr (forall_mem_singleton.mpr rfl)
  apart _ := pairwise_singleton _ _
  newer _ _ _ _ _ hb := by
    obtain ⟨⟨_, _, _, hg, _⟩, _⟩ := hb
    cases hg
  beside _ _ _ _ _ _ hg := absurd hg not_mem_nil

private theorem mem_store {e : Entry} (he : e ∈ (vs lastSequence).current.store contents) :
    e = versionOf107 2 [2] ∨ e = versionOf107 1 [1] := by
  obtain ⟨_, _, _, _, he⟩ := he
  exact mem_pair.mp he

/-- What does not depend on the logs. -/
private theorem intact (hlast : lastSequence ≤ maxSequenceNumber)
    (hlogs : ((wals.map Wal.file).filter fun log => 5 ≤ log.1 || log.1 == 0) = wals.map Wal.file)
    (hbatches : ∀ b ∈ walBatches wals, b.Ok)
    (hordered : (walBatches wals).Pairwise LogBatch.Ordered)
    (hcopies : walEntries wals = [] ∨ walEntries wals = [versionOf107 1 [1], versionOf107 2 [2]]) :
    IntactFiles (files lastSequence wals) (vs lastSequence) wals where
  manifest := recover_of_record (encodable_edit (hlast.trans_lt (by decide))) rfl rfl
  comparator := rfl
  numbers level _ f hf := by
    rcases tops_edit.mem_files.mp hf with ⟨-, hf⟩ | ⟨-, hf⟩
    · cases hf
    · rw [mem_singleton.mp hf]
      exact Nat.lt_succ_self 7
  lastSequence := hlast
  order := tops_edit.recencyOrder (recencyOrder_of_no_files fun _ => rfl)
  logs := hlogs
  batches := hbatches
  ordered := hordered
  newer := by
    rintro a ha b ⟨hb, hnot⟩
    rcases hcopies with hnone | hboth
    · rw [hnone] at ha
      cases ha
    · rw [hboth] at hnot
      rcases mem_store hb with rfl | rfl
      · exact absurd (mem_pair.mpr (.inr rfl)) hnot
      · exact absurd (mem_pair.mpr (.inl rfl)) hnot

/-- The second open reads the newest of the entries that are in the table and in the log. -/
theorem openDb_files :
    OpensFaithfully ⟨List.length, List.length⟩ {} (files 2 [wal]) (vs 2) [wal] := by
  have hbatches : ∀ b ∈ walBatches [wal], b.Ok :=
    forall_mem_cons.mpr ⟨⟨by decide +kernel, by decide +kernel, by decide +kernel⟩,
      forall_mem_singleton.mpr ⟨by decide +kernel, by decide +kernel, by decide +kernel⟩⟩
  refine openDb_faithful ⟨intact (by decide) rfl hbatches
    (pairwise_pair.mpr (.inl (by decide +kernel))) (.inr (by decide +kernel)),
    fun e he => ?_⟩ _ rfl
  rcases mem_store he with rfl | rfl <;> decide +kernel

/-- **A table that the manifest knows too little of.** A batch of two puts with a count of three
gives its entries the sequence numbers 1 and 2 and does not advance `last_sequence`; then the
memtable is flushed. The next open takes the `last_sequence` of the manifest and finds nothing. -/
theorem not_opensFaithfully :
    IntactFiles (files 0 []) (vs 0) [] ∧
      (∃ db, openDb bytewiseComparator ⟨List.length, List.length⟩ {} (files 0 []) = .ok db ∧
        db.vs.lastSequence = 0 ∧ db.get [107] = .ok none) ∧
      ¬ OpensFaithfully ⟨List.length, List.length⟩ {} (files 0 []) (vs 0) [] := by
  have hintact : IntactFiles (files 0 []) (vs 0) [] :=
    intact (Nat.zero_le _) rfl (fun _ hb => absurd hb not_mem_nil) List.Pairwise.nil (.inl rfl)
  obtain ⟨db, hopen, hmem, hord, hs, hlast⟩ :=
    hintact.openDb_spec ⟨List.length, List.length⟩
      (show ({} : OpenOptions).errorIfExists = false from rfl)
  have hzero : db.vs.lastSequence = 0 :=
    Nat.le_zero.mp ((hlast 0).mpr ⟨le_rfl, fun _ hb => absurd hb not_mem_nil⟩)
  have hstored : versionOf107 2 [2] ∈ storedIn (files 0 []) (vs 0) [] :=
    .inl ⟨2, by decide, table, tops_edit.mem_files.mpr (.inr ⟨rfl, mem_cons_self⟩), mem_cons_self⟩
  refine ⟨hintact, ⟨db, hopen, hzero, ?_⟩, ?_⟩
  · obtain ⟨o, ho, hget⟩ := hord.get_spec
      (fun level hlev f hf => (hord.files level hlev f hf).lookupOk) (Nat.zero_le _) [107]
    rcases o with _ | e
    · rw [OpenedDb.get_eq hmem, hzero, hget]
      rfl
    · have he : e ∈ storedIn (files 0 []) (vs 0) [] := hs ▸ ho.1
      have hvis : e.sequence ≤ 0 := ho.2.2.1
      rcases he with he | he
      · rcases mem_store he with rfl | rfl <;> exact absurd hvis (by decide +kernel)
      · cases he
  · rintro ⟨db', hopen', -, hle⟩
    obtain rfl : db = db' := Except.ok.inj (hopen.symm.trans hopen')
    exact absurd (hle _ hstored) (by rw [hzero]; decide +kernel)

end InterruptedOpen
end PulsearcDb
