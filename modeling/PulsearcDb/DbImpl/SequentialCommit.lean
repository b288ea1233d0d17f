import PulsearcDb.DbImpl.WriterQueue

/-!
# Group commit is sequential commit

What the groups of the writer queue have written, in the memtables and in the logs, against the same
batches committed one by one in the order of the queue. The record of a group is replayed as the
records of its batches are (`LogRecovery.after_append`), so that a switch to a new log may fall
anywhere between the groups.
-/

namespace PulsearcDb

open Log List

/-! ### Replaying the records of a batch -/

namespace LogRecovery

variable {c : Comparator}

/-- The recovery memtable with records that are numbered from a sequence number on. -/
def after (st : LogRecovery c) (sequence : ℕ) (records : List WriteBatchRecord) : LogRecovery c :=
  let ins := records.foldl MemTableInserter.handle { sequence, mem := st.mem }
  { mem := ins.mem
    maxSequence := max st.maxSequence (sequence + records.length - 1)
    bytesReplayed := st.bytesReplayed + ins.bytesAdded }

theorem after_append (st : LogRecovery c) {sequence : ℕ} (hpos : 0 < sequence)
    (records more : List WriteBatchRecord) :
    st.after sequence (records ++ more) =
      (st.after sequence records).after (sequence + records.length) more := by
  have hfold := MemTableInserter.foldl_handle_add
    (records.foldl MemTableInserter.handle { sequence, mem := st.mem }).bytesAdded
    { sequence := sequence + records.length
      mem := (records.foldl MemTableInserter.handle { sequence, mem := st.mem }).mem } more
  have hins : ({ sequence := sequence + records.length
                 mem := (records.foldl MemTableInserter.handle { sequence, mem := st.mem }).mem
                 bytesAdded := (records.foldl MemTableInserter.handle
                  { sequence, mem := st.mem }).bytesAdded + 0 } :
      MemTableInserter c) = records.foldl MemTableInserter.handle { sequence, mem := st.mem } := by
    rw [Nat.add_zero, ← MemTableInserter.sequence_foldl_handle { sequence, mem := st.mem } records]
  rw [hins] at hfold
  simp only [after, foldl_append, hfold, length_append, Nat.add_assoc, mk.injEq, true_and, and_true]
  omega

/-- **The record of a batch is replayed** with the numbers that its records were given. -/
theorem replayRecord_of_valid (st : LogRecovery c) {batch : WriteBatch} (hv : batch.Valid)
    {sequence : ℕ} (hpos : 0 < sequence + batch.handled.length)
    (hfits : sequence + batch.handled.length < 2 ^ 64) :
    st.replayRecord (batch.contentsWithSequence sequence) =
      (.ok (), st.after sequence batch.handled) := by
  have hcont : WriteBatch.setContents (batch.contentsWithSequence sequence) =
      .ok (batch.setSequence sequence) := (batch.setSequence sequence).setContents_rep
  have hiter : batch.iterate MemTableInserter.handle { sequence, mem := st.mem } =
      (.ok (), batch.handled.foldl MemTableInserter.handle { sequence, mem := st.mem }) := by
    rw [WriteBatch.iterate_eq_foldl, hv.wellFormed]
  have hmod : (sequence + batch.handled.length + (2 ^ 64 - 1)) % 2 ^ 64 =
      sequence + batch.handled.length - 1 := by omega
  simp only [replayRecord, hcont, WriteBatch.iterate_setSequence,
    WriteBatch.sequence_setSequence _ (Nat.lt_of_le_of_lt (Nat.le_add_right _ _) hfits), hiter,
    WriteBatch.count_setSequence, hv.count, hmod, after]

/-- Log files whose records are all applied are recovered without an error. -/
theorem recoverLogFiles_of_ok {logs : List LogFile} {held : List (List Bytes)}
    (hlogs : List.Forall₂ (fun log held => log.Holds held ∧ log.file.buffer = []) logs held)
    {st st' : LogRecovery c} (hok : applyRecords replayRecord st held.flatten = (.ok (), st'))
    (paranoid : Bool) :
    st.recoverLogFiles paranoid (logs.map fun log => log.file.flushed) = (.ok (), st') := by
  induction hlogs generalizing st with
  | nil => exact hok
  | cons hlog _ ih =>
    rw [flatten_cons, applyRecords_append, Outcome.andThen_eq_ok] at hok
    obtain ⟨st₁, hfst, hrest⟩ := hok
    rw [map_cons, recoverLogFiles, recoverLogFile, hlog.1.replay hlog.2, hfst]
    exact ih hrest

end LogRecovery

/-! ### One batch after the other -/

namespace WriteCore

variable {c : Comparator} (s : WriteCore c)

/-- The records of the log when the batches are committed alone. -/
def aloneRecords (sequence : ℕ) : List PendingWriter → List Bytes
  | [] => []
  | w :: writers => w.batch.contentsWithSequence sequence ::
      aloneRecords (sequence + w.batch.handled.length) writers

/-- The state when the batches are committed alone, in their order. -/
def alone (writers : List PendingWriter) : WriteCore c :=
  writers.foldl (fun s w => (s.commit { updates := w.batch, sync := w.sync }).2) s

theorem aloneRecords_append (sequence : ℕ) (writers more : List PendingWriter) :
    aloneRecords sequence (writers ++ more) =
      aloneRecords sequence writers ++
        aloneRecords (sequence + (recordsOf writers).length) more := by
  induction writers generalizing sequence with
  | nil => rfl
  | cons w writers ih =>
    simp only [cons_append, aloneRecords, ih, recordsOf, flatMap_cons, length_append, Nat.add_assoc]

/-- **The records of batches that were committed alone are replayed** as those of one batch. -/
theorem applyRecords_aloneRecords {writers : List PendingWriter} (hne : writers ≠ [])
    (hv : ∀ w ∈ writers, w.batch.Valid) {sequence : ℕ} (hpos : 0 < sequence)
    (hfits : sequence + (recordsOf writers).length < 2 ^ 64) (st : LogRecovery c) :
    applyRecords LogRecovery.replayRecord st (aloneRecords sequence writers) =
      (.ok (), st.after sequence (recordsOf writers)) := by
  induction writers generalizing sequence st with
  | nil => exact absurd rfl hne
  | cons w writers ih =>
    rw [forall_mem_cons] at hv
    rw [recordsOf, flatMap_cons, ← recordsOf, length_append] at hfits
    rw [aloneRecords, applyRecords, st.replayRecord_of_valid hv.1 (by omega) (by omega),
      Outcome.andThen_ok, recordsOf, flatMap_cons, ← recordsOf, st.after_append hpos]
    rcases eq_or_ne writers [] with rfl | hwriters
    · rw [recordsOf, flatMap_nil, ← st.after_append hpos, append_nil]
      rfl
    · exact ih hwriters hv.2 (by omega) (by omega) _

/-- What committing batches alone leads to. -/
structure CommittedAlone (records : List Bytes) (writers : List PendingWriter) (s' : WriteCore c) :
    Prop where
  lastSequence : s'.lastSequence = s.lastSequence + (recordsOf writers).length
  contents : s'.mem.entries.Perm
    (s.mem.entries ++ WriteBatchRecord.entriesFrom (s.lastSequence + 1) (recordsOf writers))
  log : s'.log.Holds (records ++ aloneRecords (s.lastSequence + 1) writers)
  buffer : s'.log.file.buffer = []

theorem committedAlone_alone {records : List Bytes} {writers : List PendingWriter}
    (hlog : s.log.Holds records) (hbuf : s.log.file.buffer = [])
    (hv : ∀ w ∈ writers, w.batch.Valid) :
    s.CommittedAlone records writers (s.alone writers) := by
  induction writers generalizing s records with
  | nil =>
    exact ⟨rfl, by simp [alone, recordsOf, WriteBatchRecord.entriesFrom],
      by rw [aloneRecords, append_nil]; exact hlog, hbuf⟩
  | cons w writers ih =>
    rw [forall_mem_cons] at hv
    obtain ⟨s', hs', hlast, hmem, hlog', hbuf'⟩ : ∃ s', s' =
        (s.commit { updates := w.batch, sync := w.sync }).2 ∧
        s'.lastSequence = s.lastSequence + w.batch.handled.length ∧
        s'.mem.entries.Perm (s.mem.entries ++
          WriteBatchRecord.entriesFrom (s.lastSequence + 1) w.batch.handled) ∧
        s'.log.Holds (records ++ [s.record w.batch]) ∧ s'.log.file.buffer = [] := by
      refine ⟨_, rfl, ?_⟩
      rw [commit_of_no_fault, publish_of_wellFormed _ hv.1.wellFormed]
      exact ⟨by rw [hv.1.count], MemTableInserter.perm_foldl_handle _ _, hlog.appended _, rfl⟩
    have hrest := ih s' hlog' hbuf' hv.2
    have ha : s.alone (w :: writers) = s'.alone writers := by
      rw [alone, foldl_cons, hs']
      rfl
    have hrecs : recordsOf (w :: writers) = w.batch.handled ++ recordsOf writers := rfl
    rw [ha]
    refine ⟨?_, ?_, ?_, hrest.buffer⟩
    · rw [hrest.lastSequence, hlast, hrecs, length_append, Nat.add_assoc]
    · refine hrest.contents.trans ((hmem.append_right _).trans ?_)
      rw [hrecs, WriteBatchRecord.entriesFrom_append, append_assoc, hlast]
      simp only [Nat.add_right_comm, List.Perm.refl]
    · have hlog'' := hrest.log
      rw [hlast, append_assoc, singleton_append] at hlog''
      simpa only [aloneRecords, record, Nat.add_right_comm] using hlog''

end WriteCore

namespace WriterQueue

variable {c : Comparator} {q : WriterQueue c}

/-! ### The memtables and the logs along a run -/

/-- **What was written**, against the batches written one by one from the state `s`, on whose log
held `records`: the batches of `committed` are committed, those of `inserted` are in the memtables
and those of `appended` in the logs, the ones put away included. -/
structure Written (s : WriteCore c) (records : List Bytes) (db : WriteCore c)
    (switched : List (MemTable c × LogFile)) (committed inserted appended : List PendingWriter) :
    Prop where
  lastSequence : db.lastSequence = s.lastSequence + (recordsOf committed).length
  contents : (switched.flatMap (fun p => p.1.entries) ++ db.mem.entries).Perm
    (s.mem.entries ++ WriteBatchRecord.entriesFrom (s.lastSequence + 1) (recordsOf inserted))
  logs : ∃ (old : List (List Bytes)) (current : List Bytes),
    List.Forall₂ (fun p held => p.2.Holds held ∧ p.2.file.buffer = []) switched old ∧
    db.log.Holds current ∧ db.log.file.buffer = [] ∧
    ∀ st : LogRecovery c, applyRecords LogRecovery.replayRecord st (old.flatten ++ current) =
      applyRecords LogRecovery.replayRecord st
        (records ++ WriteCore.aloneRecords (s.lastSequence + 1) appended)

namespace Written

variable {s db : WriteCore c} {records : List Bytes} {switched : List (MemTable c × LogFile)}
  {committed inserted appended group : List PendingWriter} {updates : WriteBatch}

section

variable (h : Written s records db switched committed inserted appended)
include h

theorem switch {db' : WriteCore c}
    (hlast : db'.lastSequence = db.lastSequence) (hmem : db'.mem = {}) (hlog : db'.log = {}) :
    Written s records db' (switched ++ [(db.mem, db.log)]) committed inserted appended := by
  obtain ⟨old, current, hold, hcur, hbuf, hr⟩ := h.logs
  refine ⟨hlast ▸ h.lastSequence, ?_, old ++ [current], [], ?_, ?_, ?_, fun st => ?_⟩
  · simpa [hmem] using h.contents
  · exact rel_append hold (.cons ⟨hcur, hbuf⟩ .nil)
  · exact hlog ▸ LogFile.holds_empty
  · rw [hlog]
  · rw [← hr, flatten_append, flatten_singleton, append_nil]

omit h in
/-- The record of a group is replayed as the records of its batches. -/
theorem append (h : Written s records db switched committed inserted committed) (hne : group ≠ [])
    (hbatches : ∀ w ∈ group, w.batch.Valid) (hv : updates.Valid)
    (hh : updates.handled = recordsOf group)
    (hfits : db.lastSequence + 1 + (recordsOf group).length < 2 ^ 64) :
    Written s records { db with log := db.log.appended (db.record updates) } switched committed
      inserted (committed ++ group) := by
  obtain ⟨old, current, hold, hcur, hbuf, hr⟩ := h.logs
  refine ⟨h.lastSequence, h.contents, old, _, hold, hcur.appended _, rfl, fun st => ?_⟩
  have hrec : ∀ st : LogRecovery c,
    applyRecords LogRecovery.replayRecord st [db.record updates] =
      applyRecords LogRecovery.replayRecord st
        (WriteCore.aloneRecords (db.lastSequence + 1) group) := fun st => by
    rw [WriteCore.applyRecords_aloneRecords hne hbatches (Nat.succ_pos _) hfits, applyRecords,
      WriteCore.record, st.replayRecord_of_valid hv (by omega) (hh ▸ hfits),
      Outcome.andThen_ok, hh]
    rfl
  have hseq : s.lastSequence + 1 + (recordsOf committed).length = db.lastSequence + 1 := by
    rw [h.lastSequence, Nat.add_right_comm]
  rw [← append_assoc, applyRecords_append, hr, WriteCore.aloneRecords_append, hseq,
    ← append_assoc, applyRecords_append _ _ (records ++ _)]
  simp only [hrec]

theorem sync :
    Written s records { db with log := (db.log.syncUnder none).2 } switched committed inserted
      appended := by
  obtain ⟨old, current, hold, hcur, hbuf, hr⟩ := h.logs
  obtain ⟨hoff, hacc, hbuf'⟩ := LogFile.syncUnder_of_flushed hbuf
  refine ⟨h.lastSequence, h.contents, old, current, hold, ⟨?_, fun body st tail => ?_⟩, hbuf', hr⟩
  · exact hoff ▸ hcur.offset
  · rw [hoff, hacc]
    exact hcur.reads body st tail

omit h in
theorem insert (h : Written s records db switched committed committed appended)
    (hh : updates.handled = recordsOf group) :
    Written s records
      { db with mem := (updates.handled.foldl MemTableInserter.handle
          { sequence := db.lastSequence + 1, mem := db.mem }).mem }
      switched committed (committed ++ group) appended := by
  refine ⟨h.lastSequence, ?_, h.logs⟩
  have hseq : s.lastSequence + 1 + (recordsOf committed).length = db.lastSequence + 1 := by
    rw [h.lastSequence, Nat.add_right_comm]
  rw [recordsOf_append, WriteBatchRecord.entriesFrom_append, hseq, ← hh, ← append_assoc]
  refine ((MemTableInserter.perm_foldl_handle _ _).append_left _).trans ?_
  rw [← append_assoc]
  exact h.contents.append_right _

theorem publish (hv : updates.Valid) (hh : updates.handled = recordsOf group)
    {db' : WriteCore c} (hlast : db'.lastSequence = db.lastSequence + updates.count)
    (hmem : db'.mem = db.mem) (hlog : db'.log = db.log) :
    Written s records db' switched (committed ++ group) inserted appended := by
  refine ⟨?_, hmem ▸ h.contents, hlog ▸ h.logs⟩
  rw [hlast, h.lastSequence, hv.count, hh, recordsOf_append, length_append, Nat.add_assoc]

end

end Written

/-- What was written in a state of the queue, and the bound on what is to come. -/
structure DataInv (s : WriteCore c) (records : List Bytes) (q : WriterQueue c) : Prop where
  written : Written s records q.db.toWriteCore q.switched (pending q.committed)
    (pending (q.committed ++ q.inFlight GroupInFlight.inserted))
    (pending (q.committed ++ q.inFlight GroupInFlight.appended))
  fits : q.db.lastSequence + 1 + (recordsOf (pending q.writers)).length < 2 ^ 64

variable {s : WriteCore c} {records : List Bytes}

theorem inFlight_none (h : q.group = none) (p : GroupInFlight → Bool) : q.inFlight p = [] := by
  rw [inFlight, h]

theorem inFlight_some {g : GroupInFlight} (h : q.group = some g) (p : GroupInFlight → Bool) :
    q.inFlight p = if p g then q.writers.take g.count else [] := by
  rw [inFlight, h]

section

variable (h : q.QueueInv)
include h

private theorem inFlight_enqueue (batch : WriteBatch) (sync : Bool) (p : GroupInFlight → Bool) :
    (q.enqueue batch sync).inFlight p = q.inFlight p := by
  rcases hgrp : q.group with _ | g
  · rw [inFlight_none hgrp, inFlight_none (q := q.enqueue batch sync) hgrp]
  · have hle := (h.group g hgrp).group.le
    rw [pending, length_map] at hle
    rw [inFlight_some hgrp, inFlight_some (q := q.enqueue batch sync) hgrp]
    simp only [WriterQueue.enqueue, take_append_of_le_length hle]

section

variable (hd : DataInv s records q)
include hd

private theorem DataInv.enqueue {batch : WriteBatch}
    (sync : Bool) (hprom : q.Promised (.enqueue batch sync)) :
    DataInv s records (q.enqueue batch sync) where
  written := by
    rw [inFlight_enqueue h, inFlight_enqueue h]
    exact hd.written
  fits := by
    have hfits := hprom.2
    change q.db.lastSequence + 1 + (recordsOf (pending (q.writers ++ [_]))).length < 2 ^ 64
    rw [pending_append, recordsOf_append, length_append, ← Nat.add_assoc]
    simpa [pending, recordsOf] using hfits

private theorem DataInv.lead : DataInv s records q.lead := by
  obtain heq | ⟨db, switched, g, hgrp, hswitched, happ, hi, -, heq⟩ := lead_cases h
  · rwa [heq]
  · have hwrit := hd.written
    rw [inFlight_none hgrp, inFlight_none hgrp] at hwrit
    rw [heq]
    refine ⟨?_, ?_⟩
    · rw [inFlight_some rfl, inFlight_some rfl, happ, hi]
      obtain ⟨rfl, rfl⟩ | ⟨rfl, rfl⟩ := hswitched
      · exact hwrit
      · exact hwrit.switch rfl rfl rfl
    · obtain ⟨rfl, -⟩ | ⟨rfl, -⟩ := hswitched <;> exact hd.fits

private theorem DataInv.append : DataInv s records q.append := by
  obtain ⟨heq, -⟩ | ⟨g, hgrp, happ, heq⟩ := append_cases h
  · rwa [heq]
  · obtain ⟨hg, -, hi⟩ := h.group g hgrp
    have hwrit := hd.written
    rw [inFlight_some hgrp, inFlight_some hgrp, happ, if_neg Bool.false_ne_true,
      append_nil] at hwrit
    have hne := h.group_ne_nil hgrp
    have hbatches : ∀ w ∈ pending (q.writers.take g.count), w.batch.Valid := fun w hw => by
      obtain ⟨w', hw', rfl⟩ := mem_map.mp hw
      exact h.valid_writers _ (mem_map_of_mem (mem_of_mem_take hw'))
    have hfits := hd.fits
    rw [← take_append_drop g.count q.writers, pending_append, recordsOf_append,
      length_append, ← Nat.add_assoc] at hfits
    replace hfits := (Nat.le_add_right _ _).trans_lt hfits
    rw [heq]
    refine ⟨?_, hd.fits⟩
    rw [inFlight_some rfl, inFlight_some rfl, if_pos rfl, pending_append _ (q.writers.take _)]
    exact hwrit.append hne hbatches hg.valid (h.handled_group hgrp) hfits

private theorem DataInv.sync : DataInv s records q.sync := by
  obtain ⟨heq, -⟩ | ⟨g, hgrp, heq⟩ := sync_cases h
  · rwa [heq]
  · have hwrit := hd.written
    rw [inFlight_some hgrp, inFlight_some hgrp] at hwrit
    rw [heq]
    refine ⟨?_, hd.fits⟩
    rw [inFlight_some rfl, inFlight_some rfl]
    exact hwrit.sync

private theorem DataInv.insert : DataInv s records q.insert := by
  obtain ⟨heq, -⟩ | ⟨g, hgrp, -, -, hi, heq⟩ := insert_cases h
  · rwa [heq]
  · have hwrit := hd.written
    rw [inFlight_some hgrp, inFlight_some hgrp, hi, if_neg Bool.false_ne_true, append_nil] at hwrit
    rw [heq]
    refine ⟨?_, hd.fits⟩
    rw [inFlight_some rfl, inFlight_some rfl, if_pos rfl, pending_append _ (q.writers.take _)]
    exact hwrit.insert (h.handled_group hgrp)

private theorem DataInv.publish : DataInv s records q.publish := by
  obtain ⟨heq, -⟩ | ⟨g, first, rest, hgrp, hwriters, happ, hi, heq⟩ := publish_cases h
  · rwa [heq]
  · obtain ⟨hg, -, -⟩ := h.group g hgrp
    have hwrit := hd.written
    rw [inFlight_some hgrp, inFlight_some hgrp, if_pos hi, if_pos happ] at hwrit
    have hcommitted : q.publish.committed = q.committed ++ q.writers.take g.count := by
      rw [heq]
      simp [committed]
    have hnone : q.publish.group = none := by rw [heq]
    refine ⟨?_, ?_⟩
    · rw [hcommitted, inFlight_none hnone, inFlight_none hnone, append_nil]
      rw [pending_append] at hwrit ⊢
      rw [heq]
      exact hwrit.publish hg.valid (h.handled_group hgrp) rfl rfl rfl
    · have hfits := hd.fits
      rw [← take_append_drop g.count q.writers, pending_append, recordsOf_append,
        length_append, ← h.handled_group hgrp, ← hg.valid.count] at hfits
      rw [heq]
      change q.db.lastSequence + g.updates.count + 1 +
        (recordsOf (pending (q.writers.drop g.count))).length < 2 ^ 64
      omega

end

end

/-- **Every step keeps what was written.** -/
theorem DataInv.step (h : q.QueueInv) (hd : DataInv s records q) {action : Action}
    (hprom : q.Promised action) : DataInv s records (q.step action) := by
  cases action with
  | enqueue batch sync => exact hd.enqueue h sync hprom
  | lead => exact hd.lead h
  | append => exact hd.append h
  | sync => exact hd.sync h
  | insert => exact hd.insert h
  | publish => exact hd.publish h
  | wake id =>
    obtain heq | ⟨status, -, -, heq⟩ := wake_cases q id
    · rwa [WriterQueue.step, heq]
    · rw [WriterQueue.step, heq]
      exact ⟨hd.written, hd.fits⟩
  | background numLevel0 =>
    refine ⟨?_, ?_⟩
    · change Written s records (q.db.background numLevel0).toWriteCore q.switched _ _ _
      rw [background_core]
      exact hd.written
    · change (q.db.background numLevel0).toWriteCore.lastSequence + 1 + _ < _
      rw [background_core]
      exact hd.fits

/-! ### Group commit is sequential commit -/

/-- The log files, those put away first. -/
def logFiles (q : WriterQueue c) : List Bytes :=
  q.switched.map (fun p => p.2.file.flushed) ++ [q.db.log.file.flushed]

/-- What was written is what committing the batches alone, in the order of the queue, writes. -/
structure AsAlone (s : WriteCore c) (q : WriterQueue c) : Prop where
  lastSequence : q.db.lastSequence = (s.alone (pending q.committed)).lastSequence
  contents : (q.switched.flatMap (fun p => p.1.entries) ++ q.db.mem.entries).Perm
    (s.alone (pending q.committed)).mem.entries
  replayed : ∀ (st : LogRecovery c) (paranoid : Bool),
    st.recoverLogFiles paranoid q.logFiles =
      st.recoverLogFiles paranoid [(s.alone (pending q.committed)).log.file.flushed]

/-- The state of a queue after a run from the database state `s`. -/
structure Serves (s : WriteCore c) (q : WriterQueue c) : Prop where
  /-- The writers have distinct ids. -/
  ids : (q.arrived.map QueuedWriter.id).Nodup
  /-- The groups follow the order of arrival. -/
  order : q.committed ++ q.writers = q.arrived
  /-- No writer is given two statuses. -/
  once : (q.returns.map Prod.fst).Nodup
  /-- A status is a success, and its writer was committed. -/
  ok : ∀ r ∈ q.returns, r.2 = .ok () ∧ r.1 ∈ q.committed.map QueuedWriter.id
  /-- Every writer comes to its status. -/
  served : ∃ actions : List Action,
    (∀ action ∈ actions, ∀ batch sync, action ≠ .enqueue batch sync) ∧
      ∀ w ∈ q.arrived, (w.id, .ok ()) ∈ (Runs.run step q actions).returns
  /-- A writer that has asked for it is committed by a group that was synced. -/
  synced : ∀ commit ∈ q.commits, ∀ w ∈ commit.1, w.sync = true → commit.2 = true
  /-- The records are numbered one after the other, in the order of arrival. -/
  numbered : q.group = none → (q.switched.flatMap (fun p => p.1.entries) ++ q.db.mem.entries).Perm
    (s.mem.entries ++ WriteBatchRecord.entriesFrom (s.lastSequence + 1)
      (recordsOf (pending q.committed)))
  asAlone : q.group = none → AsAlone s q

variable {db : Db c} {actions : List Action}

/-- A database without waiting writers. -/
def start (db : Db c) : WriterQueue c := { db }

theorem queueInv_start (hnone : db.bgError = none) : (start db).QueueInv where
  arrived := rfl
  ids := rfl
  nextWriterId := rfl
  valid := by simp [start]
  followers := by simp [start]
  noError := hnone
  group := by simp [start]
  synced := by simp [start]
  nodup := nodup_nil
  returns := by simp [start]
  slots := by simp [start]
  served := by simp [start, committed]

theorem dataInv_start (hlog : db.log.Holds records) (hbuf : db.log.file.buffer = [])
    (hfits : db.lastSequence + 1 < 2 ^ 64) : DataInv db.toWriteCore records (start db) where
  written := by
    refine ⟨rfl, ?_, [], records, .nil, hlog, hbuf, fun st => ?_⟩
    · simp [start, committed, inFlight, pending, recordsOf, WriteBatchRecord.entriesFrom]
    · simp [start, committed, inFlight, pending, WriteCore.aloneRecords]
  fits := hfits

/-- The records of the batches are applied behind those of the log. -/
private theorem exists_applyRecords {writers : List PendingWriter}
    (hok : ∀ record ∈ records, ∀ st : LogRecovery c, ∃ st', st.replayRecord record = (.ok (), st'))
    (hv : ∀ w ∈ writers, w.batch.Valid)
    (hfits : s.lastSequence + 1 + (recordsOf writers).length < 2 ^ 64) (st : LogRecovery c) :
    ∃ st', applyRecords LogRecovery.replayRecord st
      (records ++ WriteCore.aloneRecords (s.lastSequence + 1) writers) = (.ok (), st') := by
  obtain ⟨st₁, hst₁⟩ := WriteCore.applyRecords_of_ok st hok
  rw [applyRecords_append, hst₁, Outcome.andThen_ok]
  rcases eq_or_ne writers [] with rfl | hne
  · exact ⟨st₁, rfl⟩
  · exact ⟨_, WriteCore.applyRecords_aloneRecords hne hv (Nat.succ_pos _) hfits st₁⟩

private theorem DataInv.asAlone (h : q.QueueInv) (hd : DataInv s records q)
    (hlog : s.log.Holds records) (hbuf : s.log.file.buffer = [])
    (hok : ∀ record ∈ records, ∀ st : LogRecovery c, ∃ st', st.replayRecord record = (.ok (), st'))
    (hgrp : q.group = none) : AsAlone s q := by
  have hwrit := hd.written
  rw [inFlight_none hgrp, inFlight_none hgrp, append_nil] at hwrit
  have hv : ∀ w ∈ pending q.committed, w.batch.Valid := fun w hw => by
    obtain ⟨w', hw', rfl⟩ := mem_map.mp hw
    exact h.valid w' (h.arrived ▸ mem_append_left _ hw')
  have ha := s.committedAlone_alone hlog hbuf hv
  refine ⟨?_, hwrit.contents.trans ha.contents.symm, fun st paranoid => ?_⟩
  · rw [hwrit.lastSequence, ha.lastSequence]
  · obtain ⟨old, current, hold, hcur, hbuf', hr⟩ := hwrit.logs
    have hfits := hd.fits
    rw [hwrit.lastSequence] at hfits
    obtain ⟨st', hst'⟩ := exists_applyRecords (s := s) hok hv (by omega) st
    have hlogs : List.Forall₂ (fun log held => log.Holds held ∧ log.file.buffer = [])
        (q.switched.map Prod.snd ++ [q.db.log]) (old ++ [current]) :=
      rel_append (forall₂_map_left_iff.mpr hold) (.cons ⟨hcur, hbuf'⟩ .nil)
    have hfiles : q.logFiles =
        (q.switched.map Prod.snd ++ [q.db.log]).map fun log => log.file.flushed := by
      simp [logFiles]
    rw [hfiles, LogRecovery.recoverLogFiles_of_ok hlogs (by simpa [hr] using hst'),
      ← @LogRecovery.recoverLogFiles_of_ok _ [_] _ (.cons ⟨ha.log, ha.buffer⟩ .nil) _ _
        (by simpa using hst')]
    rfl

/-- **Group commit is sequential commit.** Whatever the arrivals, the groups and the flushes in
between are, the writers are served in the order of the queue, each with one status, and what is
written is what committing the batches alone writes. -/
theorem serves_run (hnone : db.bgError = none) (hlog : db.toWriteCore.Replayable)
    (hbuf : db.log.file.buffer = []) (hfits : db.lastSequence + 1 < 2 ^ 64)
    (hactions : Runs.Along step Promised (start db) actions) :
    Serves db.toWriteCore (Runs.run step (start db) actions) := by
  obtain ⟨records, hrecs, hok⟩ := hlog
  obtain ⟨h, hd⟩ := Runs.invariant
    (I := fun q : WriterQueue c => q.QueueInv ∧ DataInv db.toWriteCore records q)
    (fun q action hq hprom => ⟨hq.1.step hprom, hq.2.step hq.1 hprom⟩)
    ⟨queueInv_start hnone, dataInv_start hrecs hbuf hfits⟩ hactions
  refine ⟨?_, h.arrived, h.nodup, h.returns, exists_served h, h.synced, fun hgrp => ?_,
    hd.asAlone h hrecs hbuf hok⟩
  · rw [h.ids]
    exact nodup_range'
  · have hcont := hd.written.contents
    rwa [inFlight_none hgrp, append_nil] at hcont

/-- A put behind a delete that is already being written, and a synced put that their groups leave
behind. -/
def threeWriters : List Action :=
  [.enqueue (WriteBatch.new.delete [98]) false, .lead, .enqueue (WriteBatch.new.put [97] [1]) false,
    .enqueue (WriteBatch.new.put [97] [2]) true, .append, .insert, .publish, .lead,
    .append, .insert, .background 0, .publish, .wake 2, .lead, .append, .sync, .insert, .publish,
    .wake 3]

/-- The three writers form three groups; each is given its status once. -/
theorem serves_threeWriters :
    let q := Runs.run step (start (Db.opened none)) threeWriters
    (q.returns = [(1, .ok ()), (2, .ok ()), (3, .ok ())] ∧ q.group.isNone) ∧
      Serves (Db.opened none).toWriteCore q :=
  ⟨by decide +kernel, serves_run rfl ⟨[], LogFile.holds_empty, by simp⟩ rfl (by decide)
    (by decide +kernel)⟩

end WriterQueue
end PulsearcDb
