import Mathlib.Data.Finset.Card
import PulsearcDb.DbImpl.WritePath
import PulsearcDb.Entries

/-!
# Grouped writes and malformed batches

The writers of a database queue up, and the first one writes for those behind it
(`db_impl/db_impl.rs`): `build_batch_group` appends their batches to one batch, which goes to the
log and to the memtable as one write group. The batches are parsed only then, one record after the
other. The model has one whole write group as a step, with the memtable switch before it, and the
background flush as another. The append, the sync and the log switch of a write can fail. The tables
are represented by the entries they hold.

A group that does not parse is already in the log, and its records before the malformed one are
already in the memtable, when the write fails; so without failures of the files, a write that fails
is as if it had not been made exactly when it was refused for an earlier background error. It also
is when the log switch fails or when the append fails before the first byte of its record
(`Db.Harmless`). A failed sync leaves the record in the log, and a failed append a part of it.
-/

namespace PulsearcDb

open Log List

/-- `MAX_BATCH_GROUP_SIZE`: the size of a group whose first batch is large. -/
def maxBatchGroupSize : ℕ := 1 <<< 20

/-- `MAX_BATCH_GROUP_OVERHEAD`: what may be added to a small first batch. -/
def maxBatchGroupOverhead : ℕ := 128 <<< 10

/-- A queued writer. -/
structure PendingWriter where
  batch : WriteBatch
  sync : Bool := false
  deriving DecidableEq

/-! ### Grouping -/

/-- The loop of `build_batch_group` over the writers behind the first one. -/
def groupLoop (firstSync : Bool) (maxSize : ℕ) (result : WriteBatch) (size count : ℕ) :
    List PendingWriter → WriteBatch × ℕ
  | [] => (result, count)
  | writer :: writers =>
    if writer.sync && !firstSync then (result, count)
    else if size + writer.batch.approximateSize > maxSize then (result, count)
    else groupLoop firstSync maxSize (result.append writer.batch)
      (size + writer.batch.approximateSize) (count + 1) writers

/-- The batch of the group, the number of its writers, and whether it is synced. -/
def buildBatchGroup (first : PendingWriter) (rest : List PendingWriter) :
    WriteBatch × ℕ × Bool :=
  let size := first.batch.approximateSize
  let maxSize :=
    if size ≤ maxBatchGroupOverhead then size + maxBatchGroupOverhead else maxBatchGroupSize
  let (result, count) := groupLoop first.sync maxSize first.batch size 1 rest
  (result, count, first.sync)

/-! ### The database -/

/-- A failure of `switch_active_log`: the new log is not created, or the old one is not closed after
a part of its buffer has been written. -/
inductive SwitchFault
  | create (e : Status)
  | close (written : ℕ)

/-- The error of a failed log switch. -/
def SwitchFault.status : SwitchFault → Status
  | .create e => e
  | .close _ => Status.ioError "writable close"

/-- The log after a failed switch, which is still the current one. -/
def SwitchFault.log (m : LogFile) : SwitchFault → LogFile
  | .create _ => m
  | .close written =>
    ⟨m.blockOffset, ((m.withFault (some ⟨0, written⟩)).file.flushWith "writable close").2⟩

/-- The fate of the file operations of a write. -/
structure GroupIo extends WriteIo where
  switch : Option SwitchFault := none

/-- The part of `DBImplCore` and of the directory that writes, flushes and a recovery work on. The
logs that are no longer written are in `oldLogs`, with their numbers. -/
structure Db (c : Comparator) extends WriteCore c where
  writeBufferSize : ℕ
  imm : Option (MemTable c) := none
  tables : MemTable c := {}
  numLevel0 : ℕ := 0
  logFileNumber : ℕ := 1
  nextFileNumber : ℕ := 2
  logNumber : ℕ := 1
  oldLogs : List (ℕ × Bytes) := []

namespace Db

variable {c : Comparator}

/-- The switch to a new memtable and a new log. -/
def rotate (db : Db c) : Db c :=
  { db with
    mem := {}
    memMemoryUsage := 0
    log := {}
    imm := some db.mem
    logFileNumber := db.nextFileNumber
    nextFileNumber := db.nextFileNumber + 1
    oldLogs := db.oldLogs ++ [(db.logFileNumber, db.log.file.accepted)] }

/-- A failed switch has used up a file number. The new log, if there is one, is empty. -/
def failSwitch (db : Db c) (fault : SwitchFault) : Db c :=
  { db with nextFileNumber := db.nextFileNumber + 1, log := fault.log db.log }

/-- How the loop that makes room for a write ends: with an error for the whole queue, in a wait, or
with the state in which the group is written. -/
inductive Room (c : Comparator)
  | refused (e : Status) (db : Db c)
  | wait
  | ready (db : Db c)

/-- The loop of `write_owned` that makes room: it gives up on a background error, waits for the
background thread, or switches to a new memtable and a new log. The delay at
`L0_SLOWDOWN_WRITES_TRIGGER` files changes nothing here. -/
def makeRoom (db : Db c) (switch : Option SwitchFault := none) : Room c :=
  match db.bgError with
  | some e => .refused e db
  | none =>
    if db.memMemoryUsage ≤ db.writeBufferSize then .ready db
    else if db.imm.isSome then .wait
    else if l0StopWritesTrigger ≤ db.numLevel0 then .wait
    else match switch with
      | none => .ready db.rotate
      | some fault => .refused fault.status (db.failSwitch fault)

/-- `write_owned` for the first writer of a queue, which writes its group. The result is the status
of all the writers of the group and their number; there is none while the writer waits for the
background thread. -/
def write (db : Db c) (io : GroupIo) (first : PendingWriter) (rest : List PendingWriter) :
    Option (Result Unit × ℕ × Db c) :=
  match db.makeRoom io.switch with
  | .refused e db => some (.error e, 1 + rest.length, db)
  | .wait => none
  | .ready db =>
    let (updates, count, sync) := buildBatchGroup first rest
    let (status, core) := db.toWriteCore.commit { updates, sync, io := io.toWriteIo }
    some (status, count, { db with toWriteCore := core })

/-- The state after a flush of the immutable memtable. -/
def flushed (db : Db c) (imm : MemTable c) (numLevel0 : ℕ) : Db c :=
  { db with
    imm := none
    numLevel0
    tables := imm.entries.foldl MemTable.insert db.tables
    nextFileNumber := db.nextFileNumber + 1
    logNumber := db.logFileNumber
    oldLogs := db.oldLogs.filter fun log => db.logFileNumber ≤ log.1 }

/-- The background thread flushes the immutable memtable, and compactions leave `numLevel0` files
in level 0. -/
def background (db : Db c) (numLevel0 : ℕ) : Db c :=
  if db.bgError.isSome then db
  else
    match db.imm with
    | none => { db with numLevel0 }
    | some imm =>
      if imm.entries = [] then { db with imm := none, numLevel0 } else db.flushed imm numLevel0

/-- `get_with_options`. An iterator at a snapshot yields the keys that have a value here. -/
def get (db : Db c) (key : Bytes) (snapshot : ℕ) : Result (Option Bytes) :=
  match db.mem.get key snapshot with
  | some r => MemTable.found r
  | none =>
    match db.imm.bind fun imm => imm.get key snapshot with
    | some r => MemTable.found r
    | none =>
      match db.tables.get key snapshot with
      | some r => MemTable.found r
      | none => .ok none

/-- The log files that a reopen replays, in their order. -/
def logFiles (db : Db c) : List (ℕ × Bytes) :=
  (db.oldLogs ++ [(db.logFileNumber, db.log.file.flushed)]).filter fun log => db.logNumber ≤ log.1

/-- The recovery memtable of a reopen that is not paranoid. -/
def replayed (db : Db c) : LogRecovery c :=
  db.logFiles.foldl (fun st log => (st.recoverLogFile false log.2).2) {}

/-- The entries that a reopen finds. -/
def recovered (db : Db c) : List Entry := db.tables.entries ++ db.replayed.mem.entries

/-- A queue of writers is written, or the background thread works. -/
inductive Op
  | write (first : PendingWriter) (rest : List PendingWriter)
  | background (numLevel0 : ℕ)

/-- The batch of the group is well formed. -/
def Op.WellFormed : Op → Prop
  | .write first rest => (buildBatchGroup first rest).1.WellFormed
  | .background _ => True

/-- The state after a write under the failures `io`; a writer that waits has not written. -/
def afterWrite (db : Db c) (io : GroupIo) (first : PendingWriter) (rest : List PendingWriter) :
    Db c :=
  match db.write io first rest with
  | some (_, _, db') => db'
  | none => db

/-- A step in which no file operation fails. -/
def step (db : Db c) : Op → Db c
  | .write first rest => db.afterWrite {} first rest
  | .background numLevel0 => db.background numLevel0

/-! ### All or nothing -/

/-- The state when the `i`-th batch of the queue had not been submitted. -/
def withoutBatch (db : Db c) (io : GroupIo) (first : PendingWriter) (rest : List PendingWriter)
    (i : ℕ) : Db c :=
  match (first :: rest).eraseIdx i with
  | [] => db
  | first :: rest => db.afterWrite io first rest

/-- The `i`-th write of a queue has failed as if it had not been made. -/
structure AllOrNothing (db : Db c) (io : GroupIo) (first : PendingWriter)
    (rest : List PendingWriter) (i : ℕ) (status : Result Unit) (count : ℕ) (db' : Db c) :
    Prop where
  /-- Later reads do not see it. -/
  reads : ∀ ops key snapshot, (Runs.run step db' ops).get key snapshot =
    (Runs.run step (db.withoutBatch io first rest i) ops).get key snapshot
  /-- Nor do those after a reopen. -/
  reopened : ∀ ops, (Runs.run step db' ops).recovered =
    (Runs.run step (db.withoutBatch io first rest i) ops).recovered
  /-- No later write is given a sequence number that is in the memtable. -/
  sequences : ∀ ops first' rest' count' db'',
    (Runs.run step db' ops).write {} first' rest' = some (.ok (), count', db'') →
    ∀ k < (buildBatchGroup first' rest').1.count, ∀ e ∈ db'.mem.entries,
      keySequence e.ik ≠ (Runs.run step db' ops).lastSequence + 1 + k
  /-- The well-formed batches of the group have the status they would have had. -/
  others : ∀ j, j < count → j ≠ i → ∀ writer, (first :: rest)[j]? = some writer →
    writer.batch.WellFormed → ∀ first' rest', (first :: rest).eraseIdx i = first' :: rest' →
    ∃ count' db'', db.write io first' rest' = some (status, count', db'')
  /-- A write that is acknowledged later, behind well-formed batches, is found by every later
  reopen. -/
  recovered : ∀ ops, (∀ op ∈ ops, op.WellFormed) →
    (Runs.run step db' ops).lastSequence + 1 ≤ maxSequenceNumber → ∀ first' rest' count' db'',
    (Runs.run step db' ops).write {} first' rest' = some (.ok (), count', db'') →
    ∀ ops', ∀ e ∈ (Runs.run step db' ops).toWriteCore.newEntries (buildBatchGroup first' rest').1,
      e ∈ (Runs.run step db'' ops').recovered

/-! ### The logs -/

/-- The logs of a database: the current one, the numbers, and the logs that are not written any
more. -/
structure Logs where
  log : LogFile
  logFileNumber : ℕ
  nextFileNumber : ℕ
  logNumber : ℕ
  oldLogs : List (ℕ × Bytes)

/-- The logs of a state. -/
def logs (db : Db c) : Logs :=
  ⟨db.log, db.logFileNumber, db.nextFileNumber, db.logNumber, db.oldLogs⟩

/-- The state with other logs. -/
def withLogs (db : Db c) (l : Logs) : Db c :=
  { db with
    log := l.log
    logFileNumber := l.logFileNumber
    nextFileNumber := l.nextFileNumber
    logNumber := l.logNumber
    oldLogs := l.oldLogs }

/-- What can happen to the logs without a failure: a record is appended, a new log is begun, and a
flush makes the old logs obsolete. -/
inductive LogEvent
  | append (record : Bytes)
  | switch
  | flush

/-- The logs after an event. -/
def Logs.apply (l : Logs) : LogEvent → Logs
  | .append record => { l with log := l.log.appended record }
  | .switch =>
    { l with
      log := {}
      logFileNumber := l.nextFileNumber
      nextFileNumber := l.nextFileNumber + 1
      oldLogs := l.oldLogs ++ [(l.logFileNumber, l.log.file.accepted)] }
  | .flush =>
    { l with
      nextFileNumber := l.nextFileNumber + 1
      logNumber := l.logFileNumber
      oldLogs := l.oldLogs.filter fun log => l.logFileNumber ≤ log.1 }

/-- The numbers of the logs are in order. -/
structure Logs.Numbered (l : Logs) : Prop where
  logNumber : l.logNumber ≤ l.logFileNumber
  nextFileNumber : l.logFileNumber < l.nextFileNumber
  oldLogs : ∀ log ∈ l.oldLogs, log.1 < l.logFileNumber

theorem Logs.Numbered.apply {l : Logs} (h : l.Numbered) (event : LogEvent) :
    (l.apply event).Numbered := by
  cases event with
  | append record => exact ⟨h.logNumber, h.nextFileNumber, h.oldLogs⟩
  | switch =>
    refine ⟨h.logNumber.trans h.nextFileNumber.le, Nat.lt_succ_self _, fun log hlog => ?_⟩
    rcases mem_append.mp hlog with hlog | hlog
    · exact (h.oldLogs log hlog).trans h.nextFileNumber
    · obtain rfl := mem_singleton.mp hlog
      exact h.nextFileNumber
  | flush =>
    exact ⟨le_rfl, h.nextFileNumber.trans (Nat.lt_succ_self _),
      fun log hlog => h.oldLogs log (mem_filter.mp hlog).1⟩

/-! ### What a write does -/

/-- What holds of the logs in every reachable state, also behind malformed batches. -/
structure LogsKept (db : Db c) : Prop where
  holds : ∃ records, db.log.Holds records
  buffer : db.log.file.buffer = []
  numbered : db.logs.Numbered

/-- The state with the record of a group in the log. -/
def logged (db : Db c) (updates : WriteBatch) : WriteCore c :=
  { db.toWriteCore with log := db.log.appended (db.record updates) }

variable {db db₁ db' : Db c} {io : GroupIo} {first : PendingWriter} {rest : List PendingWriter}
  {status : Result Unit} {count : ℕ} {switch : Option SwitchFault}

/-- **What making room can do**: there is a background error, there is room, the writer waits, or
the switch is made or fails. -/
theorem makeRoom_cases (db : Db c) (switch : Option SwitchFault) :
    (∃ e, db.bgError = some e ∧ db.makeRoom switch = .refused e db) ∨
    (db.bgError = none ∧ (
      (db.memMemoryUsage ≤ db.writeBufferSize ∧ db.makeRoom switch = .ready db) ∨
      db.makeRoom switch = .wait ∨
      (db.imm = none ∧ db.makeRoom switch = .ready db.rotate) ∨
      ∃ fault, switch = some fault ∧
        db.makeRoom switch = .refused fault.status (db.failSwitch fault))) := by
  unfold makeRoom
  rcases db.bgError with _ | e
  · refine .inr ⟨rfl, ?_⟩
    dsimp only
    split_ifs with hu himm hlev
    · exact .inl ⟨hu, rfl⟩
    · exact .inr (.inl rfl)
    · exact .inr (.inl rfl)
    · rcases switch with _ | fault
      · exact .inr (.inr (.inl ⟨by simpa using himm, rfl⟩))
      · exact .inr (.inr (.inr ⟨fault, rfl, rfl⟩))
  · exact .inl ⟨e, rfl, rfl⟩

theorem makeRoom_rotate (hnone : db.bgError = none)
    (hu : ¬ db.memMemoryUsage ≤ db.writeBufferSize) (himm : ¬ db.imm.isSome)
    (hlev : ¬ l0StopWritesTrigger ≤ db.numLevel0) : db.makeRoom = .ready db.rotate := by
  simp only [makeRoom, hnone, if_neg hu, if_neg himm, if_neg hlev]

theorem makeRoom_ready (h : db.makeRoom switch = .ready db₁) :
    db.bgError = none ∧ (db₁ = db ∧ db.memMemoryUsage ≤ db.writeBufferSize ∨
      db₁ = db.rotate ∧ db.imm = none) := by
  obtain ⟨e, -, heq⟩ | ⟨hnone, ⟨hu, heq⟩ | heq | ⟨himm, heq⟩ | ⟨fault, -, heq⟩⟩ :=
    makeRoom_cases db switch <;> rw [heq] at h <;> cases h
  · exact ⟨hnone, .inl ⟨rfl, hu⟩⟩
  · exact ⟨hnone, .inr ⟨rfl, himm⟩⟩

/-- The state in which a group is written has room, and the switch keeps the sequence number. -/
theorem ready_facts (h : db.makeRoom switch = .ready db₁) :
    db₁.bgError = none ∧ db₁.memMemoryUsage ≤ db₁.writeBufferSize ∧
      db₁.lastSequence = db.lastSequence := by
  obtain ⟨hnone, ⟨rfl, hu⟩ | ⟨rfl, -⟩⟩ := makeRoom_ready h
  · exact ⟨hnone, hu, rfl⟩
  · exact ⟨hnone, Nat.zero_le _, rfl⟩

theorem write_of_refused {e : Status} (h : db.makeRoom io.switch = .refused e db')
    (first : PendingWriter) (rest : List PendingWriter) :
    db.write io first rest = some (.error e, 1 + rest.length, db') := by
  simp only [write, h]

theorem makeRoom_of_bgError {e : Status} (h : db.bgError = some e) :
    db.makeRoom switch = .refused e db := by
  simp only [makeRoom, h]

theorem write_of_ready (h : db.makeRoom = .ready db₁) (first : PendingWriter)
    (rest : List PendingWriter) :
    db.write {} first rest =
      some (((db₁.logged (buildBatchGroup first rest).1).publish (buildBatchGroup first rest).1).1,
        (buildBatchGroup first rest).2.1, { db₁ with toWriteCore :=
          ((db₁.logged (buildBatchGroup first rest).1).publish
            (buildBatchGroup first rest).1).2 }) := by
  simp only [write, h, WriteCore.commit_of_no_fault]
  rfl

/-- Where no file operation fails, the write is refused for a background error or written where
there is room. -/
theorem write_eq_some (hw : db.write {} first rest = some (status, count, db')) :
    (∃ e, db.bgError = some e ∧ status = .error e ∧ db' = db) ∨
    ∃ db₁, db.makeRoom = .ready db₁ ∧
      (db₁.logged (buildBatchGroup first rest).1).publish (buildBatchGroup first rest).1 =
        (status, db'.toWriteCore) ∧ db' = { db₁ with toWriteCore := db'.toWriteCore } := by
  obtain ⟨e, hbg, hroom⟩ | ⟨-, ⟨-, hroom⟩ | hroom | ⟨-, hroom⟩ | ⟨fault, hfault, -⟩⟩ :=
    makeRoom_cases db none
  · rw [write_of_refused hroom] at hw
    cases hw
    exact .inl ⟨e, hbg, rfl, rfl⟩
  · rw [write_of_ready hroom] at hw
    cases hw
    exact .inr ⟨_, hroom, rfl, rfl⟩
  · simp [write, hroom] at hw
  · rw [write_of_ready hroom] at hw
    cases hw
    exact .inr ⟨_, hroom, rfl, rfl⟩
  · cases hfault

/-- A step that writes leaves the state alone, or it writes the group where there is room. -/
theorem step_write_cases (db : Db c) (first : PendingWriter) (rest : List PendingWriter) :
    db.step (.write first rest) = db ∨ ∃ db₁, db.makeRoom = .ready db₁ ∧
      db.step (.write first rest) = { db₁ with toWriteCore :=
        ((db₁.logged (buildBatchGroup first rest).1).publish
          (buildBatchGroup first rest).1).2 } := by
  rw [step, afterWrite]
  rcases hw : db.write {} first rest with _ | ⟨status, count, db'⟩
  · exact .inl rfl
  · obtain ⟨e, -, -, rfl⟩ | ⟨db₁, hroom, hpub, heq⟩ := write_eq_some hw
    · exact .inl rfl
    · exact .inr ⟨db₁, hroom, by rw [hpub]; exact heq⟩

/-- The background thread flushes the immutable memtable, or there is nothing to flush. -/
theorem background_cases (db : Db c) (numLevel0 : ℕ) :
    (∃ imm n, (imm = db.imm ∨ imm = none ∧ ∀ m ∈ db.imm, m.entries = []) ∧
      db.background numLevel0 = { db with imm := imm, numLevel0 := n }) ∨
    ∃ m, db.imm = some m ∧ db.background numLevel0 = db.flushed m numLevel0 := by
  unfold background
  split_ifs
  · exact .inl ⟨db.imm, db.numLevel0, .inl rfl, rfl⟩
  rcases himm : db.imm with _ | m
  · exact .inl ⟨none, numLevel0, .inl rfl, by cases db; cases himm; rfl⟩
  · dsimp only
    split_ifs with hempty
    · refine .inl ⟨none, numLevel0, .inr ⟨rfl, fun m' hm' => ?_⟩, rfl⟩
      cases hm'
      exact hempty
    · exact .inr ⟨m, rfl, rfl⟩

/-! ### What a step does to the logs -/

/-- **The logs have no part in a step.** What a step does to them is decided by the rest of the
state. -/
theorem step_withLogs (db : Db c) (op : Op) : ∃ events : List LogEvent, ∀ l,
    (db.withLogs l).step op = (db.step op).withLogs (Runs.run Logs.apply l events) := by
  cases op with
  | write first rest =>
    have hready : ∀ (db₁ : Db c) (events : List LogEvent), db.makeRoom = .ready db₁ →
        (∀ l, (db.withLogs l).makeRoom = .ready (db₁.withLogs (Runs.run Logs.apply l events))) →
        ∃ events, ∀ l, (db.withLogs l).step (.write first rest) =
          (db.step (.write first rest)).withLogs (Runs.run Logs.apply l events) := by
      intro db₁ events hroom hroom'
      refine ⟨events ++ [.append (db₁.record (buildBatchGroup first rest).1)], fun l => ?_⟩
      rw [step, step, afterWrite, afterWrite, write_of_ready hroom, write_of_ready (hroom' l),
        Runs.run_concat]
      have hcore : ∀ l', (db₁.withLogs l').toWriteCore =
          { db₁.toWriteCore with log := l'.log } := fun _ => rfl
      simp only [logged, hcore, WriteCore.publish_withLog]
      rfl
    have hstay : (∀ l db₁, (db.withLogs l).makeRoom ≠ .ready db₁) →
        ∃ events, ∀ l, (db.withLogs l).step (.write first rest) =
          (db.step (.write first rest)).withLogs (Runs.run Logs.apply l events) := by
      intro hroom
      refine ⟨[], fun l => ?_⟩
      rw [(step_write_cases (db.withLogs l) first rest).resolve_right
          fun ⟨db₁, h, _⟩ => hroom l db₁ h,
        (step_write_cases db first rest).resolve_right fun ⟨db₁, h, _⟩ => hroom db.logs db₁ h]
      rfl
    rcases hbg : db.bgError with _ | e
    · by_cases hu : db.memMemoryUsage ≤ db.writeBufferSize
      · refine hready db [] ?_ fun l => ?_ <;> simp [makeRoom, withLogs, hbg, hu]
      by_cases hwait : db.imm.isSome ∨ l0StopWritesTrigger ≤ db.numLevel0
      · refine hstay fun l db₁ => ?_
        rcases hwait with himm | hlev
        · simp [makeRoom, withLogs, hbg, hu, himm]
        · by_cases himm : db.imm.isSome <;> simp [makeRoom, withLogs, hbg, hu, himm, hlev]
      · rw [not_or] at hwait
        exact hready db.rotate [.switch] (makeRoom_rotate hbg hu hwait.1 hwait.2) fun l =>
          @makeRoom_rotate c (db.withLogs l) hbg hu hwait.1 hwait.2
    · exact hstay fun l db₁ => by simp [makeRoom, withLogs, hbg]
  | background numLevel0 =>
    rcases hbg : db.bgError with _ | e
    · rcases himm : db.imm with _ | m
      · exact ⟨[], fun l => by simp [step, background, withLogs, hbg, himm]⟩
      · by_cases hempty : m.entries = []
        · exact ⟨[], fun l => by simp [step, background, withLogs, hbg, himm, hempty]⟩
        · refine ⟨[.flush], fun l => ?_⟩
          simp [step, background, withLogs, hbg, himm, hempty, flushed, Logs.apply]
    · exact ⟨[], fun l => by simp [step, background, withLogs, hbg]⟩

theorem run_withLogs (db : Db c) (ops : List Op) : ∃ events : List LogEvent, ∀ l,
    Runs.run step (db.withLogs l) ops =
      (Runs.run step db ops).withLogs (Runs.run Logs.apply l events) := by
  induction ops generalizing db with
  | nil => exact ⟨[], fun _ => rfl⟩
  | cons op ops ih =>
    obtain ⟨events, hstep⟩ := db.step_withLogs op
    obtain ⟨events', hrun⟩ := ih (db.step op)
    refine ⟨events ++ events', fun l => ?_⟩
    rw [Runs.run_cons, Runs.run_cons, hstep, hrun, Runs.run_append]

/-- The recovery memtable after the logs that are no longer written. -/
def Logs.replayedOld (c : Comparator) (l : Logs) : LogRecovery c :=
  (l.oldLogs.filter fun log => l.logNumber ≤ log.1).foldl
    (fun st log => (st.recoverLogFile false log.2).2) {}

theorem replayed_eq (h : db.logNumber ≤ db.logFileNumber) :
    db.replayed = ((db.logs.replayedOld c).recoverLogFile false db.log.file.flushed).2 := by
  simp only [replayed, logFiles, filter_append, foldl_append, filter_cons, h,
    decide_true, if_true, filter_nil, foldl_cons, foldl_nil]
  rfl

theorem Logs.replayedOld_switch {l : Logs} (h : l.Numbered) :
    (l.apply .switch).replayedOld c =
      ((l.replayedOld c).recoverLogFile false l.log.file.accepted).2 := by
  simp only [replayedOld, Logs.apply, filter_append, foldl_append, filter_cons,
    h.logNumber, decide_true, if_true, filter_nil, foldl_cons, foldl_nil]
  rfl

theorem Logs.replayedOld_flush {l : Logs} (h : l.Numbered) :
    (l.apply .flush).replayedOld c = {} := by
  have hnone : l.oldLogs.filter (fun log => l.logFileNumber ≤ log.1) = [] := by
    refine filter_eq_nil_iff.mpr fun log hlog => ?_
    simpa using h.oldLogs log hlog
  simp [replayedOld, Logs.apply, hnone]

/-- A recovery reads the same in both logs, now and behind any more records. -/
structure Logs.Alike (c : Comparator) (l l' : Logs) : Prop where
  numbered : l.Numbered
  numbered' : l'.Numbered
  holds : ∃ records, l.log.Holds records ∧ l'.log.Holds records
  flushed : ∀ st : LogRecovery c, (st.recoverLogFile false l.log.file.flushed).2 =
    (st.recoverLogFile false l'.log.file.flushed).2
  old : l.replayedOld c = l'.replayedOld c

/-- A recovery of all that a log has accepted applies its records. -/
theorem recoverLogFile_accepted {m : LogFile} {records : List Bytes} (h : m.Holds records)
    (st : LogRecovery c) : (st.recoverLogFile false m.file.accepted).2 =
      (applyRecords LogRecovery.replayRecord st records).2 := by
  have hreads := h.reads LogRecovery.replayRecord st []
  rw [append_nil] at hreads
  rw [LogRecovery.recoverLogFile_of_not_paranoid, replay_eq_resume, hreads]
  rcases applyRecords LogRecovery.replayRecord st records with ⟨e | u, st'⟩
  · rfl
  · rw [Outcome.andThen_ok, resume_nil _ _ h.offset]

theorem Logs.Alike.apply {l l' : Logs} (h : l.Alike c l') (event : LogEvent) :
    (l.apply event).Alike c (l'.apply event) := by
  have hnum := h.numbered.apply event
  have hnum' := h.numbered'.apply event
  obtain ⟨records, hh, hh'⟩ := h.holds
  cases event with
  | append record =>
    refine ⟨hnum, hnum', ⟨_, hh.appended record, hh'.appended record⟩, fun st => ?_, h.old⟩
    have hacc : ∀ m : LogFile, (m.appended record).file.flushed =
        (m.appended record).file.accepted := fun m => (append_nil _).symm
    simp only [Logs.apply, hacc]
    rw [recoverLogFile_accepted (hh.appended record), recoverLogFile_accepted (hh'.appended record)]
  | switch =>
    refine ⟨hnum, hnum', ⟨[], LogFile.holds_empty, LogFile.holds_empty⟩, fun st => rfl, ?_⟩
    rw [replayedOld_switch h.numbered, replayedOld_switch h.numbered', h.old,
      recoverLogFile_accepted hh, recoverLogFile_accepted hh']
  | flush =>
    refine ⟨hnum, hnum', ⟨records, hh, hh'⟩, h.flushed, ?_⟩
    rw [replayedOld_flush h.numbered, replayedOld_flush h.numbered']

/-- **States that differ in logs that read alike** keep giving the same answers, also after a
reopen. -/
theorem same_of_alike {l l' : Logs} (h : l.Alike c l') (db : Db c) (ops : List Op) :
    (∀ key snapshot, (Runs.run step (db.withLogs l) ops).get key snapshot =
      (Runs.run step (db.withLogs l') ops).get key snapshot) ∧
    (Runs.run step (db.withLogs l) ops).recovered =
      (Runs.run step (db.withLogs l') ops).recovered := by
  obtain ⟨events, hrun⟩ := db.run_withLogs ops
  have ha : (Runs.run Logs.apply l events).Alike c (Runs.run Logs.apply l' events) := by
    clear hrun
    induction events generalizing l l' with
    | nil => exact h
    | cons event events ih => exact ih (h.apply event)
  rw [hrun, hrun]
  refine ⟨fun _ _ => rfl, ?_⟩
  rw [recovered, recovered, replayed_eq ha.numbered.logNumber, replayed_eq ha.numbered'.logNumber]
  have hold := ha.old
  have hf := ha.flushed ((Runs.run Logs.apply l' events).replayedOld c)
  simp only [logs, withLogs] at hold hf ⊢
  rw [hold, hf]

/-! ### The logs in every reachable state -/

theorem LogsKept.rotate (h : db.LogsKept) : db.rotate.LogsKept where
  holds := ⟨[], LogFile.holds_empty⟩
  buffer := rfl
  numbered := h.numbered.apply .switch

theorem LogsKept.of_ready (h : db.LogsKept) (hroom : db.makeRoom switch = .ready db₁) :
    db₁.LogsKept := by
  obtain ⟨-, ⟨rfl, -⟩ | ⟨rfl, -⟩⟩ := makeRoom_ready hroom
  · exact h
  · exact h.rotate

theorem LogsKept.commit (h : db.LogsKept) (updates : WriteBatch) {core : WriteCore c}
    (hcore : core.log = db.log.appended (db.record updates)) :
    LogsKept { db with toWriteCore := core } := by
  obtain ⟨records, hh⟩ := h.holds
  exact ⟨⟨_, by simpa only [hcore] using hh.appended (db.record updates)⟩,
    by simp only [hcore]; rfl, ⟨h.numbered.logNumber, h.numbered.nextFileNumber,
      h.numbered.oldLogs⟩⟩

/-- **Every step keeps the logs**, whatever the batches are. -/
theorem LogsKept.step (h : db.LogsKept) (op : Op) : (db.step op).LogsKept := by
  cases op with
  | write first rest =>
    obtain heq | ⟨db₁, hroom, heq⟩ := step_write_cases db first rest <;> rw [heq]
    · exact h
    · exact (h.of_ready hroom).commit _ (WriteCore.log_publish _ _)
  | background numLevel0 =>
    rw [Db.step]
    obtain ⟨imm, n, -, heq⟩ | ⟨m, -, heq⟩ := background_cases db numLevel0 <;> rw [heq]
    · exact ⟨h.holds, h.buffer, h.numbered⟩
    · exact ⟨h.holds, h.buffer, h.numbered.apply .flush⟩

/-! ### What a reopen finds -/

theorem LogsKept.recovered_of_ready (h : db.LogsKept) (hroom : db.makeRoom switch = .ready db₁) :
    db₁.recovered = db.recovered := by
  obtain ⟨-, ⟨rfl, -⟩ | ⟨rfl, -⟩⟩ := makeRoom_ready hroom
  · rfl
  have hacc : db.log.file.accepted = db.log.file.flushed := by
    rw [WritableFile.accepted, h.buffer, append_nil]
  have hempty : ∀ st : LogRecovery c, (st.recoverLogFile false []).2 = st := fun st => by
    rw [LogRecovery.recoverLogFile_of_not_paranoid, replay_eq_resume,
      resume_nil _ _ (Nat.zero_le _)]
  have hreplayed : db.rotate.replayed = db.replayed := by
    have hswitch := @Logs.replayedOld_switch c _ h.numbered
    rw [replayed_eq h.rotate.numbered.logNumber, replayed_eq h.numbered.logNumber]
    refine (hempty _).trans (hswitch.trans ?_)
    rw [show db.logs.log.file.accepted = _ from hacc]
  rw [recovered, recovered, hreplayed]
  rfl

/-- A malformed record without a well-formed start hides all records behind it. -/
theorem mem_recoverLogFile_behind {log : LogFile} {records : List Bytes} {bad : Bytes}
    (hh : log.Holds records)
    (hbad : ∀ st : LogRecovery c, ∃ e st', st.replayRecord bad = (.error e, st') ∧ st'.mem = st.mem)
    (st : LogRecovery c) (tail : Bytes) :
    (st.recoverLogFile false ((log.appended bad).file.accepted ++ tail)).2.mem =
      (st.recoverLogFile false log.file.accepted).2.mem := by
  have hend := hh.reads LogRecovery.replayRecord st []
  have hbehind := (hh.appended bad).reads LogRecovery.replayRecord st tail
  rw [append_nil] at hend
  rw [LogRecovery.recoverLogFile_of_not_paranoid, LogRecovery.recoverLogFile_of_not_paranoid,
    replay_eq_resume, replay_eq_resume, hend, hbehind, applyRecords_append]
  rcases applyRecords LogRecovery.replayRecord st records with ⟨e | u, st₁⟩
  · rfl
  · obtain ⟨e, st₂, hst₂, hmem⟩ := hbad st₁
    rw [Outcome.andThen_ok, Outcome.andThen_ok, resume_nil _ _ hh.offset, applyRecords, hst₂]
    exact hmem

/-- The record of a group of which no record can be read. -/
theorem replayRecord_of_nothing_handled {updates : WriteBatch} (hwf : ¬ updates.WellFormed)
    (hnil : updates.handled = []) (s : WriteCore c) (st : LogRecovery c) :
    ∃ e st', st.replayRecord (s.record updates) = (.error e, st') ∧ st'.mem = st.mem := by
  have hcont : WriteBatch.setContents (s.record updates) =
      .ok (updates.setSequence (s.lastSequence + 1)) :=
    (updates.setSequence (s.lastSequence + 1)).setContents_rep
  rcases hstat : (updates.iterate WriteBatch.collect []).1 with e | u
  · refine ⟨e, st, ?_, rfl⟩
    simp only [LogRecovery.replayRecord, hcont, WriteBatch.iterate_setSequence,
      WriteBatch.iterate_eq_foldl updates MemTableInserter.handle, hstat, hnil, foldl_nil]
  · exact absurd hstat hwf

/-! ### The write after a malformed group -/

/-- A writer that deletes one key. -/
def deleteWriter (key : Bytes) : PendingWriter where
  batch := WriteBatch.new.delete key

theorem write_deleteWriter (hroom : db.makeRoom = .ready db₁) {key : Bytes}
    (hkey : key.length < 2 ^ 32) :
    ∃ db₂, db.write {} (deleteWriter key) [] = some (.ok (), 1, db₂) ∧
      db₂.log = db₁.log.appended (db₁.record (WriteBatch.new.delete key)) ∧
      db₂.tables = db₁.tables ∧ db₂.logs.replayedOld c = db₁.logs.replayedOld c := by
  have hgrp : buildBatchGroup (deleteWriter key) [] = (WriteBatch.new.delete key, 1, false) := rfl
  have hw := write_of_ready hroom (deleteWriter key) []
  rw [hgrp, WriteCore.publish_of_wellFormed _ (WriteBatch.wellFormed_new_delete hkey)] at hw
  exact ⟨_, hw, rfl, rfl, rfl⟩

/-- When the background thread has caught up there is room. -/
theorem makeRoom_background (h : db.bgError = none) :
    (∃ db₁, (db.background 0).makeRoom = .ready db₁) ∧
      (db.background 0).lastSequence = db.lastSequence := by
  have hback : (db.background 0).bgError = none ∧ (db.background 0).imm = none ∧
      (db.background 0).numLevel0 = 0 ∧ (db.background 0).lastSequence = db.lastSequence := by
    unfold background
    rw [if_neg (by simp [h])]
    rcases db.imm with _ | m
    · exact ⟨h, rfl, rfl, rfl⟩
    · dsimp only
      split_ifs <;> exact ⟨h, rfl, rfl, rfl⟩
  obtain ⟨hnone, himm, hlev, hlast⟩ := hback
  refine ⟨?_, hlast⟩
  by_cases hu : (db.background 0).memMemoryUsage ≤ (db.background 0).writeBufferSize
  · exact ⟨_, by rw [makeRoom, hnone]; exact if_pos hu⟩
  · refine ⟨(db.background 0).rotate, ?_⟩
    simp [makeRoom, hnone, hu, himm, hlev, l0StopWritesTrigger]

section Malformed

variable {updates : WriteBatch}

/-- The state after a malformed group. -/
def spoiled (db : Db c) (updates : WriteBatch) : Db c :=
  { db with toWriteCore := (db.logged updates).inserted updates }

/-- The first record of the group is in the memtable, and the next write is given its number. -/
theorem sequence_given_again (hnone : db.bgError = none) (hne : updates.handled ≠ [])
    (hfits : db.lastSequence + 1 ≤ maxSequenceNumber) :
    ∃ ops first rest count db'',
      (Runs.run step (db.spoiled updates) ops).write {} first rest = some (.ok (), count, db'') ∧
      ∃ k < (buildBatchGroup first rest).1.count, ∃ e ∈ (db.spoiled updates).mem.entries,
        keySequence e.ik = (Runs.run step (db.spoiled updates) ops).lastSequence + 1 + k := by
  obtain ⟨⟨db₁, hroom⟩, hlast⟩ := @makeRoom_background c (db.spoiled updates) hnone
  obtain ⟨db₂, hw, -⟩ := write_deleteWriter hroom (show ([] : Bytes).length < 2 ^ 32 by decide)
  obtain ⟨record, records, hrecs⟩ := exists_cons_of_ne_nil hne
  refine ⟨[.background 0], _, _, 1, db₂, hw, 0, ?_, record.toEntry (db.lastSequence + 1), ?_, ?_⟩
  · exact (WriteBatch.count_new_delete []).symm ▸ Nat.one_pos
  · refine MemTableInserter.mem_foldl_handle.mpr (.inr ?_)
    rw [hrecs]
    exact mem_cons_self
  · rw [WriteBatchRecord.keySequence_toEntry hfits]
    exact congrArg (· + 1) hlast.symm

/-- A group of which no record can be read hides the next write from a reopen. -/
theorem write_hidden (hkept : db.LogsKept) (hnone : db.bgError = none)
    (hu : db.memMemoryUsage ≤ db.writeBufferSize) (hwf : ¬ updates.WellFormed)
    (hnil : updates.handled = []) {key : Bytes} (hkey : key.length < 2 ^ 32) :
    ∃ db₂, (db.spoiled updates).write {} (deleteWriter key) [] = some (.ok (), 1, db₂) ∧
      db₂.recovered = db.recovered := by
  have hspoiled : (db.spoiled updates).mem = db.mem ∧
      (db.spoiled updates).memMemoryUsage = db.memMemoryUsage := by
    simp [spoiled, WriteCore.inserted, hnil, logged]
  have hroom : (db.spoiled updates).makeRoom = .ready (db.spoiled updates) := by
    rw [makeRoom, show (db.spoiled updates).bgError = none from hnone]
    exact if_pos (hspoiled.2 ▸ hu)
  obtain ⟨db₂, hw, hlog, htabs, hold⟩ := write_deleteWriter hroom hkey
  refine ⟨db₂, hw, ?_⟩
  have hkept' : (db.spoiled updates).LogsKept := hkept.commit updates rfl
  have hkept₂ : db₂.LogsKept := by
    have := hkept'.step (.write (deleteWriter key) [])
    rwa [step, afterWrite, hw] at this
  obtain ⟨records, hh⟩ := hkept.holds
  have hreplayed : db₂.replayed.mem = db.replayed.mem := by
    have hf : ∀ m : LogFile, m.file.buffer = [] → m.file.flushed = m.file.accepted :=
      fun m hm => by rw [WritableFile.accepted, hm, append_nil]
    rw [replayed_eq hkept₂.numbered.logNumber, replayed_eq hkept.numbered.logNumber,
      hf _ hkept₂.buffer, hf _ hkept.buffer, hlog, hold, LogFile.accepted_appended]
    exact mem_recoverLogFile_behind hh
      (replayRecord_of_nothing_handled hwf hnil db.toWriteCore) (db.logs.replayedOld c) _
  rw [recovered, recovered, hreplayed, htabs]
  rfl

end Malformed

/-! ### Acknowledged writes -/

/-- A recovery finds the entry in the log, whatever is behind it. -/
def Yields (c : Comparator) (e : Entry) (bytes : Bytes) : Prop :=
  ∀ (st : LogRecovery c) (tail : Bytes),
    e ∈ (st.recoverLogFile false (bytes ++ tail)).2.mem.entries

theorem Yields.append {e : Entry} {bytes : Bytes} (h : Yields c e bytes) (more : Bytes) :
    Yields c e (bytes ++ more) := by
  intro st tail
  rw [append_assoc]
  exact h st _

/-- The entry is in a table, or in a memtable and in the log of that memtable. -/
def Kept (e : Entry) (db : Db c) : Prop :=
  e ∈ db.tables.entries ∨
  ((∃ m, db.imm = some m ∧ e ∈ m.entries) ∧
    ∃ log ∈ db.oldLogs, db.logNumber ≤ log.1 ∧ Yields c e log.2) ∨
  (e ∈ db.mem.entries ∧ Yields c e db.log.file.flushed)

theorem mem_recoverLogFile {e : Entry} {st : LogRecovery c} (h : e ∈ st.mem.entries)
    (file : Bytes) : e ∈ (st.recoverLogFile false file).2.mem.entries := by
  rw [LogRecovery.recoverLogFile_of_not_paranoid, replay_eq_resume]
  exact resume_preserves (P := fun st : LogRecovery c => e ∈ st.mem.entries) _ _
    (fun st record h => st.mem_replayRecord record h) h

theorem mem_foldl_recoverLogFile {e : Entry} {files : List (ℕ × Bytes)} {st : LogRecovery c}
    (h : e ∈ st.mem.entries ∨ ∃ file ∈ files, Yields c e file.2) :
    e ∈ (files.foldl (fun st log => (st.recoverLogFile false log.2).2) st).mem.entries := by
  induction files generalizing st with
  | nil => simpa using h
  | cons file files ih =>
    rw [foldl_cons]
    refine ih ?_
    rcases h with h | ⟨file', hfile, hy⟩
    · exact .inl (mem_recoverLogFile h file.2)
    · rcases mem_cons.mp hfile with rfl | hfile
      · exact .inl (by simpa using hy st [])
      · exact .inr ⟨file', hfile, hy⟩

/-- **What is kept is found by a reopen.** -/
theorem Kept.mem_recovered {e : Entry} (h : Kept e db) (hle : db.logNumber ≤ db.logFileNumber) :
    e ∈ db.recovered := by
  rcases h with h | ⟨-, log, hlog, hlive, hy⟩ | ⟨-, hy⟩
  · exact mem_append_left _ h
  · refine mem_append_right _ (mem_foldl_recoverLogFile (.inr ⟨log, ?_, hy⟩))
    exact mem_filter.mpr ⟨mem_append_left _ hlog, by simpa using hlive⟩
  · refine mem_append_right _ (mem_foldl_recoverLogFile
      (.inr ⟨(db.logFileNumber, db.log.file.flushed), ?_, hy⟩))
    exact mem_filter.mpr ⟨mem_append_right _ (mem_singleton_self _),
      by simpa using hle⟩

theorem Kept.rotate {e : Entry} (h : Kept e db) (himm : db.imm = none)
    (hle : db.logNumber ≤ db.logFileNumber) : Kept e db.rotate := by
  rcases h with h | ⟨⟨m, hm, -⟩, -⟩ | ⟨hmem, hy⟩
  · exact .inl h
  · cases himm.symm.trans hm
  · exact .inr (.inl ⟨⟨db.mem, rfl, hmem⟩, (db.logFileNumber, db.log.file.accepted),
      mem_append_right _ (mem_singleton_self _), hle, hy.append _⟩)

theorem Kept.commit {e : Entry} (h : Kept e db) (updates : WriteBatch) :
    Kept e { db with toWriteCore := ((db.logged updates).publish updates).2 } := by
  rcases h with h | h | ⟨hmem, hy⟩
  · exact .inl h
  · exact .inr (.inl h)
  · refine .inr (.inr ⟨?_, ?_⟩)
    · have hins : e ∈ ((db.logged updates).inserted updates).mem.entries :=
        MemTableInserter.mem_foldl_handle.mpr (.inl hmem)
      by_cases hwf : updates.WellFormed
      · rw [WriteCore.publish_of_wellFormed _ hwf]
        exact hins
      · obtain ⟨e', he'⟩ := (db.logged updates).publish_of_not_wellFormed hwf
        rw [he']
        exact hins
    · rw [show ({ db with toWriteCore := ((db.logged updates).publish updates).2 } : Db c).log =
        (db.logged updates).log from WriteCore.log_publish _ _]
      have happ : (db.logged updates).log.file.flushed =
          db.log.file.flushed ++ (db.log.file.buffer ++
            framed true db.log.blockOffset (db.record updates)) := append_assoc _ _ _
      rw [happ]
      exact hy.append _

/-- **Every step keeps what is kept.** -/
theorem Kept.step {e : Entry} (h : Kept e db) (hkept : db.logs.Numbered) (op : Op) :
    Kept e (db.step op) := by
  cases op with
  | write first rest =>
    obtain heq | ⟨db₁, hroom, heq⟩ := step_write_cases db first rest <;> rw [heq]
    · exact h
    · obtain ⟨-, ⟨rfl, -⟩ | ⟨rfl, himm⟩⟩ := makeRoom_ready hroom
      · exact h.commit _
      · exact (h.rotate himm hkept.logNumber).commit _
  | background numLevel0 =>
    rw [Db.step]
    obtain ⟨imm, n, himm, heq⟩ | ⟨m, hm, heq⟩ := background_cases db numLevel0 <;> rw [heq]
    · rcases h with h | ⟨⟨m, hm, he⟩, hlog⟩ | h
      · exact .inl h
      · rcases himm with rfl | ⟨-, hempty⟩
        · exact .inr (.inl ⟨⟨m, hm, he⟩, hlog⟩)
        · rw [hempty m hm] at he
          cases he
      · exact .inr (.inr h)
    · rcases h with h | ⟨⟨m', hm', he⟩, -⟩ | h
      · exact .inl (MemTable.mem_foldl_insert.mpr (.inl h))
      · obtain rfl := Option.some.inj (hm.symm.trans hm')
        exact .inl (MemTable.mem_foldl_insert.mpr (.inr he))
      · exact .inr (.inr h)

/-! ### Clean failures -/

theorem numbered_step (h : db.logs.Numbered) (op : Op) : (db.step op).logs.Numbered := by
  obtain ⟨events, hevents⟩ := db.step_withLogs op
  have hlogs : (db.step op).logs = Runs.run Logs.apply db.logs events :=
    congrArg logs (hevents db.logs)
  rw [hlogs]
  exact Runs.invariant_of_step (fun _ event hl => hl.apply event) h

theorem replayable_of_ready (h : db.toWriteCore.Replayable)
    (hroom : db.makeRoom switch = .ready db₁) : db₁.toWriteCore.Replayable := by
  obtain ⟨-, ⟨rfl, -⟩ | ⟨rfl, -⟩⟩ := makeRoom_ready hroom
  · exact h
  · exact ⟨[], LogFile.holds_empty, by simp⟩

theorem replayable_step (h : db.toWriteCore.Replayable) {op : Op} (hop : op.WellFormed) :
    (db.step op).toWriteCore.Replayable := by
  cases op with
  | write first rest =>
    obtain heq | ⟨db₁, hroom, heq⟩ := step_write_cases db first rest <;> rw [heq]
    · exact h
    · exact (replayable_of_ready h hroom).appended hop (WriteCore.log_publish _ _)
  | background numLevel0 =>
    rw [Db.step]
    obtain ⟨imm, n, -, heq⟩ | ⟨m, -, heq⟩ := background_cases db numLevel0 <;> (rw [heq]; exact h)

theorem lastSequence_le_step (db : Db c) (op : Op) :
    db.lastSequence ≤ (db.step op).lastSequence := by
  cases op with
  | write first rest =>
    obtain heq | ⟨db₁, hroom, heq⟩ := step_write_cases db first rest <;> rw [heq]
    rw [← (ready_facts hroom).2.2]
    by_cases hwf : (buildBatchGroup first rest).1.WellFormed
    · rw [WriteCore.publish_of_wellFormed _ hwf]
      exact Nat.le_add_right _ _
    · obtain ⟨e, he⟩ := (db₁.logged (buildBatchGroup first rest).1).publish_of_not_wellFormed hwf
      rw [he]
      exact le_rfl
  | background numLevel0 =>
    rw [Db.step]
    obtain ⟨imm, n, -, heq⟩ | ⟨m, -, heq⟩ := background_cases db numLevel0
    · exact heq ▸ le_rfl
    · exact heq ▸ le_rfl

/-- What an acknowledged write has left is kept. -/
theorem kept_of_acked (hrep : db.toWriteCore.Replayable)
    (hfits : db.lastSequence + 1 ≤ maxSequenceNumber)
    (hw : db.write {} first rest = some (.ok (), count, db')) {e : Entry}
    (he : e ∈ db.toWriteCore.newEntries (buildBatchGroup first rest).1) : Kept e db' := by
  obtain ⟨e', -, herr, -⟩ | ⟨db₁, hroom, hpub, heq⟩ := write_eq_some hw
  · cases herr
  obtain ⟨hnone, -, hlast⟩ := ready_facts hroom
  have hcom : db₁.toWriteCore.write { updates := (buildBatchGroup first rest).1 } =
      (.ok (), db'.toWriteCore) := by
    rw [WriteCore.write, hnone]
    exact (db₁.commit_of_no_fault _ false).trans hpub
  rw [WriteCore.newEntries, ← hlast] at he
  refine .inr (.inr ⟨?_, fun st tail => ?_⟩)
  · rw [WriteCore.publish_of_wellFormed _
      (WriteCore.wellFormed_of_publish (congrArg Prod.fst hpub))] at hpub
    rw [← congrArg (fun r => r.2.mem) hpub]
    exact MemTableInserter.mem_foldl_handle.mpr (.inr he)
  · have hy := WriteCore.mem_recoverLogFile_of_replayable (replayable_of_ready hrep hroom)
      (congrArg Prod.fst hcom)
      (hlast ▸ hfits.trans_lt (by decide : maxSequenceNumber < 2 ^ 64)) he st tail
    rwa [WriteCore.step, hcom] at hy

/-- **A settled state**: no earlier write has left a malformed record in the log or an entry beyond
the last sequence number in the memtable. -/
structure Settled (db : Db c) : Prop extends LogsKept db where
  replayable : db.toWriteCore.Replayable
  sequences : ∀ e ∈ db.mem.entries, keySequence e.ik ≤ db.lastSequence

/-- **A write that only touches the logs**, and these in a way that a recovery does not see, is as
if it had not been made. -/
theorem allOrNothing_of_alike {l : Logs} {i : ℕ} (hset : db₁.Settled)
    (ha : l.Alike c db₁.logs) (hrep : (db₁.withLogs l).toWriteCore.Replayable)
    (hwithout : db.withoutBatch io first rest i = db₁ ∨
      db.withoutBatch io first rest i = db₁.withLogs l)
    (hothers : ∀ first' rest', (first :: rest).eraseIdx i = first' :: rest' →
      ∃ count' db'', db.write io first' rest' = some (status, count', db'')) :
    AllOrNothing db io first rest i status count (db₁.withLogs l) where
  reads ops key snapshot := by
    rcases hwithout with heq | heq <;> rw [heq]
    exact (same_of_alike ha db₁ ops).1 key snapshot
  reopened ops := by
    rcases hwithout with heq | heq <;> rw [heq]
    exact (same_of_alike ha db₁ ops).2
  sequences ops first' rest' count' db'' _ k _ e he := by
    have hlast : db₁.lastSequence ≤ (Runs.run step (db₁.withLogs l) ops).lastSequence :=
      @Runs.invariant_of_step _ _ step (db₁.withLogs l) ops
        (fun s => db₁.lastSequence ≤ s.lastSequence)
        (fun s op hs => hs.trans (s.lastSequence_le_step op)) le_rfl
    have hle := hset.sequences e he
    omega
  others j _ _ writer _ _ first' rest' heq := hothers first' rest' heq
  recovered ops hops hfits first' rest' count' db'' hw ops' e he := by
    have hinv : ∀ (ops : List Op) (s : Db c), (∀ op ∈ ops, op.WellFormed) → s.logs.Numbered →
        s.toWriteCore.Replayable → (Runs.run step s ops).logs.Numbered ∧
          (Runs.run step s ops).toWriteCore.Replayable := by
      intro ops
      induction ops with
      | nil => exact fun s _ hn hr => ⟨hn, hr⟩
      | cons op ops ih =>
        intro s hwf hn hr
        rw [forall_mem_cons] at hwf
        exact ih (s.step op) hwf.2 (numbered_step hn op) (replayable_step hr hwf.1)
    obtain ⟨hn, hr⟩ := hinv ops (db₁.withLogs l) hops ha.numbered hrep
    have hkept := kept_of_acked hr hfits hw he
    have hn' : db''.logs.Numbered := by
      have := numbered_step hn (.write first' rest')
      rwa [step, afterWrite, hw] at this
    have hrun := @Runs.invariant_of_step _ _ step db'' ops'
      (fun s => s.logs.Numbered ∧ Kept e s)
      (fun s op hs => ⟨numbered_step hs.1 op, hs.2.step hs.1 op⟩) ⟨hn', hkept⟩
    exact hrun.2.mem_recovered hrun.1.logNumber

/-! ### All or nothing -/

/-- A write that is refused for a background error. -/
theorem allOrNothing_of_bgError {e : Status} (h : db.bgError = some e) (first : PendingWriter)
    (rest : List PendingWriter) (i count : ℕ) :
    AllOrNothing db io first rest i (.error e) count db := by
  have hw : ∀ io first' rest', db.write io first' rest' =
      some (.error e, 1 + rest'.length, db) := fun io first' rest' =>
    write_of_refused (makeRoom_of_bgError h) first' rest'
  have hstep : ∀ op, db.step op = db := by
    rintro (⟨first', rest'⟩ | n)
    · rw [step, afterWrite, hw]
    · rw [step, background, if_pos (by rw [h]; rfl)]
  have hrun : ∀ ops, Runs.run step db ops = db := by
    intro ops
    induction ops with
    | nil => rfl
    | cons op ops ih => rw [Runs.run_cons, hstep, ih]
  have hwithout : db.withoutBatch io first rest i = db := by
    unfold withoutBatch
    split
    · rfl
    · rw [afterWrite, hw]
  refine ⟨fun ops key snapshot => by rw [hwithout], fun ops => by rw [hwithout],
    fun ops first' rest' count' db'' hok => ?_, fun j _ _ _ _ _ first' rest' _ =>
    ⟨_, _, hw io first' rest'⟩, fun ops _ _ first' rest' count' db'' hok => ?_⟩
  all_goals
    rw [hrun, hw] at hok
    simp at hok

/-- The log switch has failed. -/
theorem allOrNothing_of_failSwitch (hset : db.Settled) {fault : SwitchFault}
    (hroom : db.makeRoom io.switch = .refused fault.status (db.failSwitch fault)) (i : ℕ) :
    AllOrNothing db io first rest i (.error fault.status) count (db.failSwitch fault) := by
  have hw := @write_of_refused c db (db.failSwitch fault) io _ hroom
  obtain ⟨records, hh, hok⟩ := hset.replayable
  have hlog : (fault.log db.log).blockOffset = db.log.blockOffset ∧
      (fault.log db.log).file.flushed = db.log.file.flushed ∧
      (fault.log db.log).file.buffer = db.log.file.buffer := by
    cases fault with
    | create e => exact ⟨rfl, rfl, rfl⟩
    | close written =>
      simp [SwitchFault.log, LogFile.withFault, WritableFile.flushWith, hset.buffer]
  have hh' : (fault.log db.log).Holds records := hh.of_cleanFault hlog.2.1 (.inl ⟨hlog.1, hlog.2.2⟩)
  have hnum := hset.numbered
  refine allOrNothing_of_alike (l := (db.failSwitch fault).logs) hset
    { numbered := ⟨hnum.logNumber, hnum.nextFileNumber.trans (Nat.lt_succ_self _),
        hnum.oldLogs⟩
      numbered' := hnum
      holds := ⟨records, hh', hh⟩
      flushed := fun st => by
        rw [show (db.failSwitch fault).logs.log.file.flushed = db.logs.log.file.flushed from
          hlog.2.1]
      old := rfl } ⟨records, hh', hok⟩ ?_ fun first' rest' _ => ⟨_, _, hw first' rest'⟩
  unfold withoutBatch
  split
  · exact .inl rfl
  · refine .inr ?_
    rw [afterWrite, hw]
    rfl

/-- The append has failed before the first byte of its record. -/
theorem allOrNothing_of_cleanFault (hset : db₁.Settled)
    (hroom : db.makeRoom io.switch = .ready db₁) {fault : Fault} (hio : io.append = some fault)
    (hclean : LogFile.CleanFault db₁.log.blockOffset fault) (halone : db₁ = db ∨ rest ≠ [])
    (hw : db.write io first rest = some (status, count, db')) (i : ℕ) :
    AllOrNothing db io first rest i status count db' := by
  obtain ⟨e, m, happend, hf, hrest⟩ := LogFile.addRecordUnder_of_cleanFault hclean
  have hfails : ∀ first' rest', db.write io first' rest' = some (.error e,
      (buildBatchGroup first' rest').2.1, db₁.withLogs { db₁.logs with log := m }) := by
    intro first' rest'
    simp only [write, hroom, WriteCore.commit, WriteCore.appendToLog, hio, happend]
    rfl
  rw [hfails] at hw
  obtain ⟨rfl, rfl, rfl⟩ : Except.error e = status ∧ _ = count ∧ _ = db' := by simpa using hw
  obtain ⟨records, hh, hok⟩ := hset.replayable
  have hh' : m.Holds records := hh.of_cleanFault hf hrest
  have hnum := hset.numbered
  refine allOrNothing_of_alike hset
    { numbered := ⟨hnum.logNumber, hnum.nextFileNumber, hnum.oldLogs⟩
      numbered' := hnum
      holds := ⟨records, hh', hh⟩
      flushed := fun st => by rw [show _ = db₁.logs.log.file.flushed from hf]
      old := rfl } ⟨records, hh', hok⟩ ?_ fun first' rest' _ => ⟨_, _, hfails first' rest'⟩
  unfold withoutBatch
  split
  · rename_i herase
    refine .inl (halone.resolve_right fun hne => ?_).symm
    have hlen := congrArg List.length herase
    have hpos := length_pos_iff.mpr hne
    rw [length_eraseIdx, length_cons] at hlen
    split_ifs at hlen
    rw [Nat.add_sub_cancel, length_nil] at hlen
    omega
  · refine .inr ?_
    rw [afterWrite, hfails]

private theorem exists_unused_key (entries : List Entry) (h : entries.length < 2 ^ 32) :
    ∃ key : Bytes, key.length < 2 ^ 32 ∧ ∀ s t v, (⟨internalKey key s t, v⟩ : Entry) ∉ entries := by
  have hcard : (entries.map fun e => e.ik.length - 8).toFinset.card <
      (Finset.range (2 ^ 32)).card := by
    rw [Finset.card_range]
    exact (toFinset_card_le _).trans_lt (by simpa using h)
  obtain ⟨n, hn, hunused⟩ := Finset.exists_mem_notMem_of_card_lt_card hcard
  refine ⟨List.replicate n 0, by simpa using hn, fun s t v hmem => hunused ?_⟩
  refine mem_toFinset.mpr (mem_map.mpr ⟨_, hmem, ?_⟩)
  rw [length_internalKey, length_replicate, Nat.add_sub_cancel]

/-- **A malformed group is not all or nothing.** -/
theorem not_allOrNothing_of_malformed {updates : WriteBatch} (hkept : db.LogsKept)
    (hfits : db.lastSequence + 1 ≤ maxSequenceNumber) (hents : db.recovered.length < 2 ^ 32)
    (hroom : db.makeRoom switch = .ready db₁) (hwf : ¬ updates.WellFormed) (i : ℕ) :
    ¬ AllOrNothing db io first rest i status count (db₁.spoiled updates) := by
  intro hall
  obtain ⟨hnone, hu, hlast⟩ := ready_facts hroom
  by_cases hnil : updates.handled = []
  · obtain ⟨key, hkey, hunused⟩ := exists_unused_key db.recovered hents
    obtain ⟨db₂, hw, hrec⟩ := write_hidden (hkept.of_ready hroom) hnone hu hwf hnil hkey
    have hnew : (⟨internalKey key (db₁.lastSequence + 1) .deletion, []⟩ : Entry) ∈
        (db₁.spoiled updates).toWriteCore.newEntries (WriteBatch.new.delete key) := by
      rw [WriteCore.newEntries, WriteBatch.handled_new_delete hkey]
      exact mem_cons_self
    have hmem := hall.recovered [] (by simp) (hlast ▸ hfits) _ _ _ _ hw [] _ hnew
    rw [Runs.run_nil, hrec, hkept.recovered_of_ready hroom] at hmem
    exact hunused _ _ _ hmem
  · obtain ⟨ops, first', rest', count', db'', hw, k, hk, e, he, hseq⟩ :=
      sequence_given_again hnone hnil (hlast ▸ hfits)
    exact hall.sequences ops first' rest' count' db'' hw k hk e he hseq

/-- **The writes that leave nothing behind when they fail**: there was a background error before;
the log switch fails; the append fails before the first byte of its record, on a log that was there
before or for a group that others are in; or no file operation fails and the batch of the whole
group is well formed, so that the write does not fail. -/
inductive Harmless (db : Db c) (io : GroupIo) (first : PendingWriter)
    (rest : List PendingWriter) : Prop
  | refused : db.bgError.isSome → Harmless db io first rest
  | switch {e : Status} {db' : Db c} : db.Settled → db.makeRoom io.switch = .refused e db' →
      Harmless db io first rest
  | append {db₁ : Db c} {fault : Fault} : db₁.Settled → db.makeRoom io.switch = .ready db₁ →
      io.append = some fault → LogFile.CleanFault db₁.log.blockOffset fault →
      (db₁ = db ∨ rest ≠ []) → Harmless db io first rest
  | wellFormed : io = {} → (buildBatchGroup first rest).1.WellFormed → Harmless db io first rest

/-- A new database, perhaps with a background error. -/
def opened (bgError : Option Status) : Db bytewiseComparator where
  writeBufferSize := 4 <<< 20
  bgError := bgError

theorem settled_opened (bgError : Option Status) : (opened bgError).Settled where
  holds := ⟨[], LogFile.holds_empty⟩
  buffer := rfl
  numbered := ⟨le_rfl, Nat.one_lt_two, by simp [opened, logs]⟩
  replayable := ⟨[], LogFile.holds_empty, by simp⟩
  sequences e he := by cases he

/-- A writer whose batch holds one record and counts two. -/
def wrongCountWriter : PendingWriter where
  batch := (WriteBatch.new.put [97] [1]).setCount 2

/-- The error of a sync. -/
def syncError : Status := Status.ioError "writable sync"

/-- A write to a new database, evaluated. -/
theorem exists_write {io : GroupIo} {writer : PendingWriter} {e : Status}
    (h : (((opened none).write io writer []).map fun r => (r.1, r.2.1)) = some (.error e, 1)) :
    (opened none).write io writer [] =
      some (.error e, 1, (opened none).afterWrite io writer []) := by
  obtain ⟨⟨status, count, db'⟩, hw, heq⟩ := Option.map_eq_some_iff.mp h
  cases heq
  rw [afterWrite, hw]

/-- A failed sync has left the record in the log, and a failed append a part of it. -/
theorem not_allOrNothing_of_faults :
    (∃ e db', (opened none).write { sync := some ⟨0, 0⟩ } ⟨WriteBatch.new.put [97] [1], true⟩ [] =
        some (.error e, 1, db') ∧ ¬ AllOrNothing (opened none) { sync := some ⟨0, 0⟩ }
          ⟨WriteBatch.new.put [97] [1], true⟩ [] 0 (.error e) 1 db') ∧
    ∃ e db', (opened none).write { append := some ⟨0, 3⟩ } ⟨WriteBatch.new.put [97] [1], false⟩ [] =
        some (.error e, 1, db') ∧ ¬ AllOrNothing (opened none) { append := some ⟨0, 3⟩ }
          ⟨WriteBatch.new.put [97] [1], false⟩ [] 0 (.error e) 1 db' := by
  refine ⟨⟨syncError, _, exists_write (by decide +kernel), fun hall => ?_⟩,
    Status.ioError "writable append", _, exists_write (by decide +kernel), fun hall => ?_⟩
  · exact absurd (hall.reopened []) (by decide +kernel)
  · exact absurd (hall.reopened [.write (deleteWriter [98]) []]) (by decide +kernel)

end Db
end PulsearcDb
