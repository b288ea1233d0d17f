import PulsearcDb.Foundation.Runs
import PulsearcDb.Log.Replay
import PulsearcDb.MemTable

/-!
# Committing a write group and recovering a log

The part of `DBImpl::write_owned` between the hand-out of the log and the publication of the result
(`db_impl/db_impl.rs`): the record of the group goes to the write-ahead log, the log is synced on
demand, the records go to the memtable, and the last sequence number is advanced when all of that
has succeeded. `recover_log_file` replays the records of a log into a memtable.

A failed append leaves any prefix of its record, and the next group goes on behind it. The
acknowledged writes that a recovery finds all the same are those before which no failed append has
left a byte of its record.
-/

namespace PulsearcDb

open Log List

/-- The fate of the file operations of a write group. -/
structure WriteIo where
  append : Option Fault := none
  sync : Option Fault := none

/-- The part of `DBImplCore` that a write group works on. -/
structure WriteCore (c : Comparator) where
  lastSequence : ℕ := 0
  mem : MemTable c := {}
  memMemoryUsage : ℕ := 0
  log : LogFile := {}
  bgError : Option Status := none

/-- A write group: the batch that `build_batch_group` has put together, and the fate of its file
operations. -/
structure WriteGroup where
  updates : WriteBatch
  sync : Bool := false
  io : WriteIo := {}

namespace WriteCore

variable {c : Comparator}

/-- The append to the log: the sequence number in place of the one in the batch. -/
def appendToLog (s : WriteCore c) (g : WriteGroup) : Outcome LogFile :=
  s.log.addRecordUnder g.io.append (putFixed64 (s.lastSequence + 1)) (g.updates.contents.drop 8)

/-- The records, numbered behind `last_sequence`. -/
def insertIntoMem (s : WriteCore c) (updates : WriteBatch) : Outcome (MemTableInserter c) :=
  updates.iterate MemTableInserter.handle { sequence := s.lastSequence + 1, mem := s.mem }

/-- The memtable insertion and the publication of its status. -/
def publish (s : WriteCore c) (updates : WriteBatch) : Outcome (WriteCore c) :=
  match s.insertIntoMem updates with
  | (.error e, ins) =>
    (.error e, { s with mem := ins.mem, memMemoryUsage := s.memMemoryUsage + ins.bytesAdded })
  | (.ok _, ins) =>
    (.ok (), { s with
      mem := ins.mem
      memMemoryUsage := s.memMemoryUsage + ins.bytesAdded
      lastSequence := s.lastSequence + updates.count })

/-- `write_owned` from the hand-out of the log on. Only a failed sync is recorded in `bg_error`. -/
def commit (s : WriteCore c) (g : WriteGroup) : Outcome (WriteCore c) :=
  match s.appendToLog g with
  | (.error e, log) => (.error e, { s with log := log })
  | (.ok _, log) =>
    if g.sync then
      match log.syncUnder g.io.sync with
      | (.error e, log) => (.error e, { s with log := log, bgError := some e })
      | (.ok _, log) => publish { s with log := log } g.updates
    else publish { s with log := log } g.updates

/-- A write group on the current log: refused when there is a background error. -/
def write (s : WriteCore c) (g : WriteGroup) : Outcome (WriteCore c) :=
  match s.bgError with
  | some e => (.error e, s)
  | none => s.commit g

/-- The state after a write group. -/
def step (s : WriteCore c) (g : WriteGroup) : WriteCore c := (s.write g).2

/-- The record of a group in the log. -/
def record (s : WriteCore c) (updates : WriteBatch) : Bytes :=
  updates.contentsWithSequence (s.lastSequence + 1)

/-- The entries that a group adds to the memtable. -/
def newEntries (s : WriteCore c) (updates : WriteBatch) : List Entry :=
  WriteBatchRecord.entriesFrom (s.lastSequence + 1) updates.handled

end WriteCore

/-! ### Recovering a log -/

/-- The variables of `recover_log_file`. -/
structure LogRecovery (c : Comparator) where
  mem : MemTable c := {}
  maxSequence : ℕ := 0
  bytesReplayed : ℕ := 0

namespace LogRecovery

variable {c : Comparator}

/-- The body of the loop. -/
def replayRecord (st : LogRecovery c) (record : Bytes) : Outcome (LogRecovery c) :=
  match WriteBatch.setContents record with
  | .error e => (.error e, st)
  | .ok batch =>
    match batch.iterate MemTableInserter.handle { sequence := batch.sequence, mem := st.mem } with
    | (.error e, ins) => (.error e, { st with mem := ins.mem })
    | (.ok _, ins) =>
      (.ok (), {
        mem := ins.mem
        maxSequence := max st.maxSequence ((batch.sequence + batch.count + (2 ^ 64 - 1)) % 2 ^ 64)
        bytesReplayed := st.bytesReplayed + ins.bytesAdded })

/-- `recover_log_file` on the bytes of a log. -/
def recoverLogFile (st : LogRecovery c) (paranoid : Bool) (file : Bytes) :
    Outcome (LogRecovery c) :=
  match replay replayRecord st file with
  | (.error e, st) => if paranoid then (.error e, st) else (.ok (), st)
  | (.ok _, st) => (.ok (), st)

/-- The loop of `open` over the files of its logs. -/
def recoverLogFiles (st : LogRecovery c) (paranoid : Bool) : List Bytes → Outcome (LogRecovery c)
  | [] => (.ok (), st)
  | file :: files =>
    (st.recoverLogFile paranoid file).andThen fun st => st.recoverLogFiles paranoid files

theorem recoverLogFile_of_not_paranoid (st : LogRecovery c) (file : Bytes) :
    st.recoverLogFile false file = (.ok (), (replay replayRecord st file).2) := by
  rw [recoverLogFile]
  rcases replay replayRecord st file with ⟨e | u, st'⟩ <;> rfl

/-- A record takes no entry out of the memtable. -/
theorem mem_replayRecord (st : LogRecovery c) (record : Bytes) {e : Entry}
    (h : e ∈ st.mem.entries) : e ∈ (st.replayRecord record).2.mem.entries := by
  unfold replayRecord
  split
  · exact h
  · rename_i batch _
    rw [batch.iterate_eq_foldl]
    split <;>
    · rename_i heq
      obtain ⟨-, rfl⟩ := Prod.mk.inj heq
      exact MemTableInserter.mem_foldl_handle.mpr (.inl h)

/-- **The record of a well-formed group is applied.** -/
theorem replayRecord_record (st : LogRecovery c) (s : WriteCore c) {updates : WriteBatch}
    (hwf : updates.WellFormed) :
    ∃ st', st.replayRecord (s.record updates) = (.ok (), st') ∧
      (s.lastSequence + 1 < 2 ^ 64 → ∀ e ∈ s.newEntries updates, e ∈ st'.mem.entries) := by
  have hcont : WriteBatch.setContents (s.record updates) =
      .ok (updates.setSequence (s.lastSequence + 1)) :=
    (updates.setSequence (s.lastSequence + 1)).setContents_rep
  have hiter : updates.iterate MemTableInserter.handle
      { sequence := (updates.setSequence (s.lastSequence + 1)).sequence, mem := st.mem } =
      (.ok (), updates.handled.foldl MemTableInserter.handle
        { sequence := (updates.setSequence (s.lastSequence + 1)).sequence, mem := st.mem }) := by
    rw [WriteBatch.iterate_eq_foldl, hwf]
  simp only [replayRecord, hcont, WriteBatch.iterate_setSequence, hiter]
  refine ⟨_, rfl, fun hseq e he => MemTableInserter.mem_foldl_handle.mpr (.inr ?_)⟩
  rwa [WriteBatch.sequence_setSequence _ hseq]

end LogRecovery

/-! ### The log along a run -/

namespace WriteCore

variable {c : Comparator} {s s' : WriteCore c} {g : WriteGroup}

theorem appendToLog_ok {u : Unit} {log : LogFile} (h : s.appendToLog g = (.ok u, log)) :
    log = s.log.appended (s.record g.updates) :=
  LogFile.addRecordUnder_ok h

/-- **What a write group does to the log**: it is refused, its append fails, its sync fails behind
the complete record, or the record is there and the group goes to the memtable. -/
theorem write_cases (s : WriteCore c) (g : WriteGroup) :
    (∃ e, s.bgError = some e ∧ s.write g = (.error e, s)) ∨
    (∃ e log, s.appendToLog g = (.error e, log) ∧ s.write g = (.error e, { s with log := log })) ∨
    (∃ e, s.write g = (.error e, { s with
      log := s.log.appended (s.record g.updates), bgError := some e })) ∨
    (s.bgError = none ∧
      s.write g = publish { s with log := s.log.appended (s.record g.updates) } g.updates) := by
  rcases herr : s.bgError with _ | e
  · refine .inr ?_
    simp only [write, herr, commit]
    rcases happ : s.appendToLog g with ⟨e | u, log⟩
    · exact .inl ⟨e, log, rfl, rfl⟩
    · obtain rfl := appendToLog_ok happ
      have hsync := s.log.syncUnder_appended (s.record g.updates) g.io.sync
      refine .inr ?_
      dsimp only
      split_ifs
      · rcases hs : (s.log.appended (s.record g.updates)).syncUnder g.io.sync with ⟨e | u, log⟩ <;>
          obtain rfl : log = s.log.appended (s.record g.updates) := by rw [← hsync, hs]
        · exact .inl ⟨e, rfl⟩
        · exact .inr ⟨trivial, rfl⟩
      · exact .inr ⟨trivial, rfl⟩
  · exact .inl ⟨e, rfl, by rw [write, herr]⟩

@[simp] theorem log_publish (s : WriteCore c) (updates : WriteBatch) :
    (s.publish updates).2.log = s.log := by
  rw [publish]
  split <;> rfl

/-- The log has no part in the memtable insertion. -/
theorem publish_withLog (s : WriteCore c) (log : LogFile) (updates : WriteBatch) :
    publish { s with log := log } updates =
      ((s.publish updates).1, { (s.publish updates).2 with log := log }) := by
  have hinsert : insertIntoMem { s with log := log } updates = s.insertIntoMem updates := rfl
  rw [publish, publish, hinsert]
  rcases s.insertIntoMem updates with ⟨e | u, ins⟩ <;> rfl

/-- The state with the records of a batch in the memtable. -/
def inserted (s : WriteCore c) (updates : WriteBatch) : WriteCore c :=
  let ins := updates.handled.foldl MemTableInserter.handle
    { sequence := s.lastSequence + 1, mem := s.mem }
  { s with mem := ins.mem, memMemoryUsage := s.memMemoryUsage + ins.bytesAdded }

theorem publish_of_wellFormed (s : WriteCore c) {updates : WriteBatch} (h : updates.WellFormed) :
    s.publish updates = (.ok (), { s.inserted updates with
      lastSequence := s.lastSequence + updates.count }) := by
  rw [publish, insertIntoMem, WriteBatch.iterate_eq_foldl, h]
  rfl

/-- A batch that is not well formed has left its first records in the memtable. -/
theorem publish_of_not_wellFormed (s : WriteCore c) {updates : WriteBatch}
    (h : ¬ updates.WellFormed) : ∃ e, s.publish updates = (.error e, s.inserted updates) := by
  rw [publish, insertIntoMem, WriteBatch.iterate_eq_foldl]
  rcases hstat : (updates.iterate WriteBatch.collect []).1 with e | u
  · exact ⟨e, rfl⟩
  · exact absurd hstat h

theorem wellFormed_of_publish {updates : WriteBatch} (h : (s.publish updates).1 = .ok ()) :
    updates.WellFormed := by
  by_contra hwf
  obtain ⟨e, he⟩ := s.publish_of_not_wellFormed hwf
  simp [he] at h

/-- Without failures of the files, the record is in the log. -/
theorem commit_of_no_fault (s : WriteCore c) (updates : WriteBatch) (sync : Bool) :
    s.commit { updates, sync } =
      publish { s with log := s.log.appended (s.record updates) } updates := by
  have happ : s.appendToLog { updates, sync } = (.ok (), s.log.appended (s.record updates)) :=
    s.log.addRecordUnder_none _ _
  have hsync : (s.log.appended (s.record updates)).syncUnder none =
      (.ok (), s.log.appended (s.record updates)) :=
    Prod.ext rfl (s.log.syncUnder_appended _ none)
  cases sync <;> simp only [commit, happ, hsync, Bool.false_eq_true, if_false, if_true]

/-- A write group takes back no flushed byte. -/
theorem flushed_step (s : WriteCore c) (g : WriteGroup) :
    s.log.file.flushed <+: (s.step g).log.file.flushed := by
  have happended : s.log.file.flushed <+: (s.log.appended (s.record g.updates)).file.flushed := by
    simp [LogFile.appended, WritableFile.accepted, append_assoc]
  obtain ⟨e, -, h⟩ | ⟨e, log, happ, h⟩ | ⟨e, h⟩ | ⟨-, h⟩ := s.write_cases g
  · exact ⟨[], by rw [step, h, append_nil]⟩
  · have hpre := s.log.flushed_addRecordUnder g.io.append (putFixed64 (s.lastSequence + 1))
      (g.updates.contents.drop 8)
    rw [step, h]
    rwa [← appendToLog, happ] at hpre
  · rw [step, h]
    exact happended
  · rw [step, h, log_publish]
    exact happended

theorem flushed_run (s : WriteCore c) (groups : List WriteGroup) :
    s.log.file.flushed <+: (Runs.run step s groups).log.file.flushed := by
  induction groups generalizing s with
  | nil => exact prefix_rfl
  | cons g groups ih => exact (s.flushed_step g).trans (ih (s.step g))

/-- The log holds records that a recovery applies. -/
def Replayable (s : WriteCore c) : Prop :=
  ∃ records, s.log.Holds records ∧
    ∀ record ∈ records, ∀ st : LogRecovery c, ∃ st', st.replayRecord record = (.ok (), st')

/-- A failed append of the group leaves no byte of its record. -/
def CleanWrite (s : WriteCore c) (g : WriteGroup) : Prop :=
  ∀ fault ∈ g.io.append, LogFile.CleanFault s.log.blockOffset fault

instance (s : WriteCore c) (g : WriteGroup) : Decidable (s.CleanWrite g) :=
  inferInstanceAs (Decidable (∀ fault ∈ g.io.append, LogFile.CleanFault s.log.blockOffset fault))

theorem Replayable.appended (h : s.Replayable) {updates : WriteBatch} (hwf : updates.WellFormed)
    {s' : WriteCore c} (hs' : s'.log = s.log.appended (s.record updates)) : s'.Replayable := by
  obtain ⟨records, hh, hok⟩ := h
  refine ⟨records ++ [s.record updates], hs' ▸ hh.appended _, fun record hrec st => ?_⟩
  rcases mem_append.mp hrec with hrec | hrec
  · exact hok record hrec st
  · obtain rfl := mem_singleton.mp hrec
    obtain ⟨st', hst', -⟩ := st.replayRecord_record s hwf
    exact ⟨st', hst'⟩

/-- **A clean write keeps the log replayable.** -/
theorem Replayable.step (h : s.Replayable) (hc : s.CleanWrite g) (hwf : g.updates.WellFormed) :
    (s.step g).Replayable := by
  obtain ⟨e, -, heq⟩ | ⟨e, log, happ, heq⟩ | ⟨e, heq⟩ | ⟨-, heq⟩ := s.write_cases g <;>
    rw [WriteCore.step, heq]
  · exact h
  · obtain ⟨records, hh, hok⟩ := h
    refine ⟨records, ?_, hok⟩
    rcases hio : g.io.append with _ | fault
    · rw [appendToLog, hio, LogFile.addRecordUnder_none] at happ
      simp at happ
    · obtain ⟨e', log', happ', hflushed, hrest⟩ :=
        LogFile.addRecordUnder_of_cleanFault (hc fault hio)
      rw [appendToLog, hio, happ'] at happ
      obtain rfl := (Prod.mk.inj happ).2
      exact hh.of_cleanFault hflushed hrest
  · exact h.appended hwf rfl
  · exact h.appended hwf (log_publish _ _)

theorem Replayable.run {groups : List WriteGroup} (h : s.Replayable)
    (hwf : ∀ g ∈ groups, g.updates.WellFormed)
    (hc : Runs.Along WriteCore.step CleanWrite s groups) :
    (Runs.run WriteCore.step s groups).Replayable := by
  induction groups generalizing s with
  | nil => exact h
  | cons g groups ih =>
    rw [forall_mem_cons] at hwf
    exact ih (h.step hc.1 hwf.1) hwf.2 hc.2

/-- What an acknowledged group has left in the log. -/
theorem log_of_acked (h : (s.write g).1 = .ok ()) :
    g.updates.WellFormed ∧ (s.step g).log = s.log.appended (s.record g.updates) := by
  obtain ⟨e, -, heq⟩ | ⟨e, log, happ, heq⟩ | ⟨e, heq⟩ | ⟨-, heq⟩ := s.write_cases g
  · simp [heq] at h
  · simp [heq] at h
  · simp [heq] at h
  · rw [heq] at h
    exact ⟨wellFormed_of_publish h, by rw [step, heq, log_publish]⟩

theorem applyRecords_of_ok {records : List Bytes} (st : LogRecovery c)
    (hok : ∀ record ∈ records, ∀ st : LogRecovery c,
      ∃ st', st.replayRecord record = (.ok (), st')) :
    ∃ st', applyRecords LogRecovery.replayRecord st records = (.ok (), st') := by
  induction records generalizing st with
  | nil => exact ⟨st, rfl⟩
  | cons record records ih =>
    obtain ⟨st₁, hst₁⟩ := hok record mem_cons_self st
    rw [applyRecords, hst₁, Outcome.andThen_ok]
    exact ih st₁ fun record' h => hok record' (mem_cons_of_mem record h)

/-- A group that is acknowledged on a log that can be replayed is found there, whatever is written
behind it. -/
theorem mem_recoverLogFile_of_replayable (h : s.Replayable) (hacked : (s.write g).1 = .ok ())
    (hsequence : s.lastSequence + 1 < 2 ^ 64) {e : Entry} (he : e ∈ s.newEntries g.updates)
    (st : LogRecovery c) (tail : Bytes) :
    e ∈ (st.recoverLogFile false ((s.step g).log.file.flushed ++ tail)).2.mem.entries := by
  obtain ⟨hwf, hlog⟩ := log_of_acked hacked
  obtain ⟨records, hh, hok⟩ := h
  have hflushed : (s.step g).log.file.flushed =
      (s.log.appended (s.record g.updates)).file.accepted := by
    rw [hlog]
    simp [LogFile.appended, WritableFile.accepted]
  obtain ⟨st₁, hst₁⟩ := applyRecords_of_ok st hok
  obtain ⟨st₂, hst₂, hmem⟩ := st₁.replayRecord_record s hwf
  rw [LogRecovery.recoverLogFile_of_not_paranoid, hflushed, replay_eq_resume,
    (hh.appended _).reads, applyRecords_append, hst₁, Outcome.andThen_ok, applyRecords, hst₂,
    Outcome.andThen_ok, applyRecords, Outcome.andThen_ok]
  exact resume_preserves (P := fun st : LogRecovery c => e ∈ st.mem.entries) _ _
    (fun st record h => st.mem_replayRecord record h) (hmem hsequence e he)

/-- **An acknowledged write survives.** On a new log some groups are written, then a group that is
acknowledged, then any more. If no failed append before the acknowledged group has left a byte of
its record, then a recovery of what is on disk after a crash, all that was flushed and any bytes
behind it, applies the group. -/
theorem mem_recoverLogFile_of_acked {groups after : List WriteGroup} (hnew : s.log = {})
    (hwf : ∀ g' ∈ groups, g'.updates.WellFormed) (hc : Runs.Along step CleanWrite s groups)
    (hacked : ((Runs.run step s groups).write g).1 = .ok ())
    (hsequence : (Runs.run step s groups).lastSequence + 1 < 2 ^ 64) {disk : Bytes}
    (hdisk : (Runs.run step s (groups ++ g :: after)).log.file.flushed <+: disk)
    (st : LogRecovery c) :
    ∀ e ∈ (Runs.run step s groups).newEntries g.updates,
      e ∈ (st.recoverLogFile false disk).2.mem.entries := by
  intro e he
  have hstart : s.Replayable := ⟨[], hnew ▸ LogFile.holds_empty, by simp⟩
  rw [Runs.run_append, Runs.run_cons] at hdisk
  obtain ⟨tail, rfl⟩ := ((Runs.run step s groups).step g |>.flushed_run after).trans hdisk
  exact mem_recoverLogFile_of_replayable (hstart.run hwf hc) hacked hsequence he st tail

/-- A group that puts one key. -/
def putGroup (key : Bytes) (io : WriteIo) : WriteGroup where
  updates := WriteBatch.new.put key [1]
  io := io

/-- The append of a first group fails after three bytes of its header. The next group is
acknowledged, and the recovery reads the header of its record three bytes too early. -/
theorem not_mem_recoverLogFile_of_partial_append :
    let failed := putGroup [98] { append := some ⟨0, 3⟩ }
    let g := putGroup [97] {}
    let s := step ({} : WriteCore bytewiseComparator) failed
    failed.updates.WellFormed ∧ (s.write g).1 = .ok () ∧ ∃ e ∈ s.newEntries g.updates,
      e ∉ (LogRecovery.recoverLogFile (c := bytewiseComparator) {} false
        (s.step g).log.file.flushed).2.mem.entries := by
  refine ⟨by decide +kernel, by decide +kernel, ⟨internalKey [97] 1 .value, [1]⟩, ?_, ?_⟩
  · decide +kernel
  · decide +kernel

/-- The append of a first group fails and leaves nothing; the next group is recovered. -/
theorem mem_recoverLogFile_of_clean_append :
    let failed := putGroup [98] { append := some ⟨0, 0⟩ }
    let g := putGroup [97] {}
    let s := step ({} : WriteCore bytewiseComparator) failed
    ∀ e ∈ s.newEntries g.updates,
      e ∈ (LogRecovery.recoverLogFile (c := bytewiseComparator) {} false
        (s.step g).log.file.flushed).2.mem.entries :=
  @mem_recoverLogFile_of_acked bytewiseComparator {} (putGroup [97] {})
    [putGroup [98] { append := some ⟨0, 0⟩ }] [] rfl (by decide +kernel) (by decide +kernel)
    (by decide +kernel) (by decide +kernel) _ prefix_rfl {}

end WriteCore
end PulsearcDb
