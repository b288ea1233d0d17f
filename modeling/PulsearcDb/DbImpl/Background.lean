import PulsearcDb.DbImpl.Lsm
import PulsearcDb.VersionSet.CustomOrder

/-!
# The background worker and the manual compactions

The threads that change the version of a database (`db_impl/db_impl.rs`). The background worker runs
`bg_loop`: when there is work it flushes the immutable memtable and carries out compactions until
none is due. Any number of `compact_range` and `test_compact_range` callers carry out compactions of
their own. Both let go of the mutex while they read and write tables, so a version that a choice was
made on could be another one when the result is installed. What keeps them apart are the flags
`bg_work_scheduled`, `bg_work_running` and `manual_compaction_running` and the immutable memtable.

An action of the model is a section that holds the mutex, or a piece of the work between two of
them. The threads that do not change the version are there with what they do to the shared state:
writers and `force_flush` callers rotate the memtable, readers schedule work and hold iterators, and
a writer group appends, syncs and is acknowledged. Which entries a memtable or an output holds,
which file has used up its seek allowance and which operation fails are left to the actions.

At most one thread is between its choice and its `log_and_apply`, and the
version it made the choice on is still the current one.
-/

namespace PulsearcDb

/-- A compaction on its way, with the outputs that have been written. -/
structure Work where
  compaction : Compaction
  outputs : List TableOutput := []

/-- What a thread is doing between its choice and `log_and_apply`. A flush has chosen the level of
its table in the version `base`. -/
inductive Job
  | flush (base : Version) (level : ℕ) (table : TableOutput) (built : Bool)
  | compaction (work : Work)

/-- Where the background worker stands: before the section of `bg_loop` that looks for work, before
the one that looks for an immutable memtable, before the one that collects it, before picking a
compaction, at work, or before the section that ends the cycle. -/
inductive WorkerAt
  | waiting
  | started
  | flushing
  | picking
  | working (job : Job)
  | ended (result : Result Unit)

/-- Where a caller of `compact_range` or `test_compact_range` stands. -/
inductive CallerAt
  | outside
  | working (work : Work)
  | ended (result : Result Unit)

/-- A writer group between the check of `bg_error` and its publication. -/
structure WriteAt where
  sync : Bool
  status : Result Unit := .ok ()
  appended : Bool := false
  synced : Bool := false
  syncError : Bool := false

/-- What matters for the stickiness of errors: calls of `log_and_apply`, failed syncs of the log and
acknowledged writes. -/
inductive Event
  | applied
  | applyFailed
  | syncFailed
  | acked
  deriving DecidableEq

/-- The part of `DBImplCore` that the threads share, the tables in the directory, and where the
threads stand. Not of the program are the versions behind the live iterators, the numbers of the
tables that were retired, and the events. -/
structure Background (c : Comparator) where
  current : Version
  nextFileNumber : ℕ
  tableFiles : Finset ℕ
  imm : Bool := false
  bgWorkScheduled : Bool := false
  bgWorkRunning : Bool := false
  manualCompactionRunning : Bool := false
  bgError : Option Status := none
  activeIterators : ℕ := 0
  obsoleteTableFileNumbers : List ℕ := []
  worker : WorkerAt := .waiting
  callers : ℕ → CallerAt := fun _ => .outside
  group : Option WriteAt := none
  iterators : List Version := []
  retired : List ℕ := []
  events : List Event := []

namespace Background

/-- The steps of the threads, in any order. -/
inductive Action
  | rotate
  | schedule
  | newIterator
  | dropIterator (index : ℕ)
  | workerStart
  | workerLook
  | workerCollect (entries : List Entry)
  | workerBuild
  | workerPick (fileToCompact : Option (ℕ × ℕ)) (compactPointer : ℕ → Bytes)
  | workerOutput (first : Entry) (more : List Entry)
  | workerFail (e : Status)
  | workerInstall (fault : Option Status)
  | workerEnd
  | callerPick (caller level : ℕ) (first last : Option Bytes)
  | callerOutput (caller : ℕ) (first : Entry) (more : List Entry)
  | callerFail (caller : ℕ) (e : Status)
  | callerInstall (caller : ℕ) (fault : Option Status)
  | callerEnd (caller : ℕ)
  | lead (sync : Bool)
  | append (fault : Option Status)
  | sync (fault : Option Status)
  | publish

variable {c : Comparator} (sizing : Sizing)

/-! ### Tables -/

/-- The files are removed from the directory. -/
def deleteTableFileNumbers (st : Background c) (numbers : List ℕ) : Background c :=
  { st with tableFiles := st.tableFiles \ numbers.toFinset }

/-- The tables are deleted at once, or when the last iterator is dropped. -/
def retireTableFileNumbers (st : Background c) (numbers : List ℕ) : Background c :=
  let st := { st with retired := st.retired ++ numbers }
  if st.activeIterators = 0 then st.deleteTableFileNumbers numbers
  else { st with obsoleteTableFileNumbers := st.obsoleteTableFileNumbers ++ numbers }

/-- The last iterator removes the files that waited for it. -/
def releaseIterator (st : Background c) : Background c :=
  let st := { st with activeIterators := st.activeIterators - 1 }
  if st.activeIterators = 0 ∧ st.obsoleteTableFileNumbers ≠ [] then
    { st.deleteTableFileNumbers st.obsoleteTableFileNumbers with obsoleteTableFileNumbers := [] }
  else st

/-- `new_iterator_with_options`: the iterator is made and registered in one section. -/
def newIterator (st : Background c) : Background c :=
  if st.bgError.isSome then st
  else
    { st with
      iterators := st.iterators ++ [st.current]
      activeIterators := st.activeIterators + 1 }

/-- The drop hook of an iterator. -/
def dropIterator (st : Background c) (index : ℕ) : Background c :=
  if index < st.iterators.length then
    { st.releaseIterator with iterators := st.iterators.eraseIdx index }
  else st

/-! ### Compactions -/

/-- The entries of an output of a merge, behind its first one. -/
def outputTable (number : ℕ) (first : Entry) (more : List Entry) : TableOutput :=
  more.foldl TableOutput.add (.single number first)

/-- An output takes the next file number and is written. -/
def output (st : Background c) (work : Work) (first : Entry) (more : List Entry) :
    Background c × Work :=
  ({ st with
      nextFileNumber := st.nextFileNumber + 1
      tableFiles := insert st.nextFileNumber st.tableFiles },
    { work with outputs := work.outputs ++ [outputTable st.nextFileNumber first more] })

/-- A successful `log_and_apply`. -/
def logAndApply (st : Background c) (edit : VersionEdit) : Background c :=
  { st with current := st.current.edited c edit, events := st.events ++ [.applied] }

/-- The last section of `do_compaction_work_async`: the edit is applied and the inputs of a merge
are retired. -/
def installWork (st : Background c) (work : Work) : Background c :=
  let x := work.compaction
  if x.isTrivialMove then
    match x.inputs0 with
    | [] => st
    | f :: _ => st.logAndApply (Lsm.trivialEdit x f)
  else
    (st.logAndApply (Lsm.mergeEdit sizing x work.outputs)).retireTableFileNumbers
      ((x.inputs0 ++ x.inputs1).map FileMetaData.number)

/-! ### The background worker -/

/-- The section of `bg_loop` that looks for work. -/
def workerStart (st : Background c) : Background c :=
  match st.worker with
  | .waiting =>
    if st.manualCompactionRunning || (!st.bgWorkScheduled && !st.imm) then st
    else if st.bgError.isSome then { st with bgWorkScheduled := false }
    else { st with bgWorkScheduled := false, bgWorkRunning := true, worker := .started }
  | _ => st

/-- `bg_step_async` looks for an immutable memtable. -/
def workerLook (st : Background c) : Background c :=
  match st.worker with
  | .started => { st with worker := if st.imm then .flushing else .picking }
  | _ => st

/-- The first section of `compact_memtable_async`. -/
def workerCollect (st : Background c) (entries : List Entry) : Background c :=
  match st.worker with
  | .flushing =>
    if st.imm then
      match entries.head?, entries.getLast? with
      | some first, some last =>
        { st with
          nextFileNumber := st.nextFileNumber + 1
          worker := .working (.flush st.current
            (st.current.pickLevelForMemtableOutput c first.key last.key)
            ⟨st.nextFileNumber, first.ik, last.ik, entries⟩ false) }
      | _, _ => { st with imm := false, worker := .picking }
    else { st with worker := .picking }
  | _ => st

/-- The table of a flush is written. -/
def workerBuild (st : Background c) : Background c :=
  match st.worker with
  | .working (.flush base level table false) =>
    { st with
      tableFiles := insert table.number st.tableFiles
      worker := .working (.flush base level table true) }
  | _ => st

/-- What `pick_compaction` picks; with nothing to do the cycle ends. -/
def workerPick (st : Background c) (fileToCompact : Option (ℕ × ℕ)) (compactPointer : ℕ → Bytes) :
    Background c :=
  match st.worker with
  | .picking =>
    match st.current.pickCompaction c fileToCompact compactPointer with
    | none => { st with worker := .ended (.ok ()) }
    | some x => { st with worker := .working (.compaction { compaction := x }) }
  | _ => st

/-- The merge of the worker writes one table. -/
def workerOutput (st : Background c) (first : Entry) (more : List Entry) : Background c :=
  match st.worker with
  | .working (.compaction work) =>
    if work.compaction.isTrivialMove then st
    else
      let (st, work) := st.output work first more
      { st with worker := .working (.compaction work) }
  | _ => st

/-- Reading or writing a table fails. -/
def workerFail (st : Background c) (e : Status) : Background c :=
  match st.worker with
  | .working _ => { st with worker := .ended (.error e) }
  | _ => st

/-- The section with `log_and_apply`. -/
def workerInstall (st : Background c) (fault : Option Status) : Background c :=
  match st.worker, fault with
  | .working (.flush _ level table true), none =>
    { st.logAndApply { newFiles := [⟨level, table.metadata sizing⟩] } with
      imm := false, worker := .picking }
  | .working (.flush _ _ _ true), some e =>
    { st with worker := .ended (.error e), events := st.events ++ [.applyFailed] }
  | .working (.compaction work), none => { st.installWork sizing work with worker := .picking }
  | .working (.compaction _), some e =>
    { st with worker := .ended (.error e), events := st.events ++ [.applyFailed] }
  | _, _ => st

/-- The last section of a cycle of `bg_loop`. -/
def workerEnd (st : Background c) : Background c :=
  match st.worker with
  | .ended (.ok _) => { st with bgWorkRunning := false, worker := .waiting }
  | .ended (.error e) => { st with bgWorkRunning := false, bgError := some e, worker := .waiting }
  | _ => st

/-! ### Manual compactions -/

/-- A caller moves on. -/
def goto (st : Background c) (caller : ℕ) (place : CallerAt) : Background c :=
  { st with callers := Function.update st.callers caller place }

/-- The section that waits for the other work and picks. `bg_error` is looked at only before a wait,
so a caller that does not have to wait goes on. -/
def callerPick (st : Background c) (caller level : ℕ) (first last : Option Bytes) : Background c :=
  match st.callers caller with
  | .outside =>
    if st.bgWorkScheduled || st.bgWorkRunning || st.imm || st.manualCompactionRunning then st
    else
      match st.current.pickManualCompaction c level first last with
      | none => st
      | some x =>
        goto { st with manualCompactionRunning := true } caller (.working { compaction := x })
  | _ => st

/-- The merge of a caller writes one table. -/
def callerOutput (st : Background c) (caller : ℕ) (first : Entry) (more : List Entry) :
    Background c :=
  match st.callers caller with
  | .working work =>
    if work.compaction.isTrivialMove then st
    else
      let (st, work) := st.output work first more
      st.goto caller (.working work)
  | _ => st

/-- The work of a caller fails. -/
def callerFail (st : Background c) (caller : ℕ) (e : Status) : Background c :=
  match st.callers caller with
  | .working _ => st.goto caller (.ended (.error e))
  | _ => st

/-- A caller installs its work, or the manifest fails. -/
def callerInstall (st : Background c) (caller : ℕ) (fault : Option Status) : Background c :=
  match st.callers caller, fault with
  | .working work, none => (st.installWork sizing work).goto caller (.ended (.ok ()))
  | .working _, some e =>
    goto { st with events := st.events ++ [.applyFailed] } caller (.ended (.error e))
  | _, _ => st

/-- The section behind the work. The error goes to the caller only. -/
def callerEnd (st : Background c) (caller : ℕ) : Background c :=
  match st.callers caller with
  | .ended _ => goto { st with manualCompactionRunning := false } caller .outside
  | _ => st

/-! ### Writer groups -/

/-- The leader of a group looks at `bg_error` and takes the log. -/
def lead (st : Background c) (sync : Bool) : Background c :=
  if st.group.isNone ∧ st.bgError.isNone then { st with group := some { sync } } else st

/-- The leader appends its group to the log. -/
def append (st : Background c) (fault : Option Status) : Background c :=
  match st.group with
  | some g =>
    if g.appended then st
    else
      match fault with
      | none => { st with group := some { g with appended := true } }
      | some e => { st with group := some { g with appended := true, status := .error e } }
  | none => st

/-- The leader syncs the log. -/
def sync (st : Background c) (fault : Option Status) : Background c :=
  match st.group with
  | some g =>
    if g.appended ∧ g.status = .ok () ∧ g.sync ∧ ¬ g.synced then
      match fault with
      | none => { st with group := some { g with synced := true } }
      | some e =>
        { st with
          group := some { g with synced := true, status := .error e, syncError := true }
          events := st.events ++ [.syncFailed] }
    else st
  | none => st

/-- The last section of `write_owned`. Only a failed sync is recorded. -/
def publish (st : Background c) : Background c :=
  match st.group with
  | some g =>
    if g.appended ∧ (g.status = .ok () → g.sync → g.synced) then
      match g.status with
      | .ok _ => { st with group := none, events := st.events ++ [.acked] }
      | .error e =>
        { st with group := none, bgError := if g.syncError then some e else st.bgError }
    else st
  | none => st

/-- A writer or a `force_flush` caller makes the memtable the immutable one; the new log takes a
file number. -/
def rotate (st : Background c) : Background c :=
  if st.imm then st
  else
    { st with imm := true, bgWorkScheduled := true, nextFileNumber := st.nextFileNumber + 1 }

/-- One step of a thread. -/
def step (st : Background c) : Action → Background c
  | .rotate => st.rotate
  | .schedule => { st with bgWorkScheduled := true }
  | .newIterator => st.newIterator
  | .dropIterator index => st.dropIterator index
  | .workerStart => st.workerStart
  | .workerLook => st.workerLook
  | .workerCollect entries => st.workerCollect entries
  | .workerBuild => st.workerBuild
  | .workerPick fileToCompact compactPointer => st.workerPick fileToCompact compactPointer
  | .workerOutput first more => st.workerOutput first more
  | .workerFail e => st.workerFail e
  | .workerInstall fault => st.workerInstall sizing fault
  | .workerEnd => st.workerEnd
  | .callerPick caller level first last => st.callerPick caller level first last
  | .callerOutput caller first more => st.callerOutput caller first more
  | .callerFail caller e => st.callerFail caller e
  | .callerInstall caller fault => st.callerInstall sizing caller fault
  | .callerEnd caller => st.callerEnd caller
  | .lead sync => st.lead sync
  | .append fault => st.append fault
  | .sync fault => st.sync fault
  | .publish => st.publish

/-- A database right after `open`. -/
def opened (c : Comparator) (current : Version) (nextFileNumber : ℕ) (tableFiles : Finset ℕ) :
    Background c :=
  { current, nextFileNumber, tableFiles }

/-! ### Who is at work -/

/-- The worker and the callers of `compact_range`. -/
inductive Thread
  | worker
  | caller (i : ℕ)
  deriving DecidableEq

/-- What a thread is doing between its choice and `log_and_apply`. -/
def job (st : Background c) : Thread → Option Job
  | .worker =>
    match st.worker with
    | .working j => some j
    | _ => none
  | .caller i =>
    match st.callers i with
    | .working work => some (.compaction work)
    | _ => none

end Background

namespace Job

/-- The version on which the choice was made. -/
def base : Job → Version
  | flush base _ _ _ => base
  | compaction work => work.compaction.inputVersion

/-- The files that the edit deletes, with their levels. -/
def deleted : Job → List (ℕ × FileMetaData)
  | flush _ _ _ _ => []
  | compaction work =>
    work.compaction.inputs0.map (fun f => (work.compaction.level, f)) ++
      work.compaction.inputs1.map fun f => (work.compaction.level + 1, f)

/-- The choice is one that is made on the version: the level of a new table, or the inputs of a
compaction. -/
def ChosenOn (c : Comparator) (v : Version) : Job → Prop
  | flush _ level table _ =>
    level = v.pickLevelForMemtableOutput c (userKey table.smallest) (userKey table.largest)
  | compaction work => v.Picks c work.compaction

end Job

namespace Background

/-- **Edits are installed on the version they were computed from.** -/
structure InstallsOnBase (st : Background c) : Prop where
  /-- At most one thread is at work. -/
  exclusive : ∀ t t', (st.job t).isSome → (st.job t').isSome → t = t'
  /-- The version on which it made its choice is the current one. -/
  base : ∀ t j, st.job t = some j → j.base = st.current ∧ j.ChosenOn c st.current
  /-- The files that it will delete are there. -/
  deleted : ∀ t j, st.job t = some j → ∀ p ∈ j.deleted, p.2 ∈ st.current.files p.1

/-- The flags, and the choices of the threads at work. -/
structure WorkInv (st : Background c) : Prop where
  running : st.bgWorkRunning = true ↔ st.worker ≠ .waiting
  manual : st.manualCompactionRunning = true ↔ ∃ i, st.callers i ≠ .outside
  callers : ∀ i j, st.callers i ≠ .outside → st.callers j ≠ .outside → i = j
  exclusive : ¬ (st.bgWorkRunning = true ∧ st.manualCompactionRunning = true)
  chosen : ∀ t j, st.job t = some j → j.base = st.current ∧ j.ChosenOn c st.current

variable {st st' : Background c} {caller : ℕ} {sizing}

theorem job_worker_eq_some {j : Job} : st.job .worker = some j ↔ st.worker = .working j := by
  rw [job]
  split
  · rename_i hw
    rw [hw, Option.some.injEq, WorkerAt.working.injEq]
  · rename_i hw
    exact iff_of_false nofun (hw j)

theorem job_caller_eq_some {i : ℕ} {j : Job} :
    st.job (.caller i) = some j ↔ ∃ work, st.callers i = .working work ∧ j = .compaction work := by
  rw [job]
  split
  · rename_i work hcall
    simp only [hcall, Option.some.injEq, CallerAt.working.injEq, exists_eq_left', eq_comm]
  · rename_i hcall
    exact iff_of_false nofun fun ⟨work, hwork, _⟩ => hcall work hwork

namespace WorkInv

/-- What other threads do does not matter. -/
theorem of_eq (h : st.WorkInv) (hrun : st'.bgWorkRunning = st.bgWorkRunning)
    (hm : st'.manualCompactionRunning = st.manualCompactionRunning) (hw : st'.worker = st.worker)
    (hc : st'.callers = st.callers) (hcur : st'.current = st.current) : st'.WorkInv := by
  have hjob : st'.job = st.job := by
    funext t
    cases t <;> simp only [job, hw, hc]
  refine ⟨?_, ?_, ?_, ?_, ?_⟩
  · rw [hrun, hw, h.running]
  · rw [hm, hc, h.manual]
  · rw [hc]
    exact h.callers
  · rw [hrun, hm]
    exact h.exclusive
  · rw [hjob, hcur]
    exact h.chosen

/-- While the worker is at work, all callers are outside. -/
theorem callers_outside (h : st.WorkInv) (hw : st.worker ≠ .waiting) (i : ℕ) :
    st.callers i = .outside := by
  by_contra hi
  exact h.exclusive ⟨h.running.mpr hw, h.manual.mpr ⟨i, hi⟩⟩

/-- While a caller is at work, the worker waits. -/
theorem worker_waiting (h : st.WorkInv) {i : ℕ} (hi : st.callers i ≠ .outside) :
    st.worker = .waiting := by
  by_contra hw
  exact hi (h.callers_outside hw i)

/-- A step of the worker within its cycle. -/
theorem of_worker (h : st.WorkInv) (hw : st.worker ≠ .waiting)
    (hw' : st'.worker ≠ .waiting) (hrun : st'.bgWorkRunning = st.bgWorkRunning)
    (hm : st'.manualCompactionRunning = st.manualCompactionRunning)
    (hc : st'.callers = st.callers)
    (hchosen : ∀ j, st'.worker = .working j → j.base = st'.current ∧ j.ChosenOn c st'.current) :
    st'.WorkInv := by
  refine ⟨?_, ?_, ?_, ?_, ?_⟩
  · exact iff_of_true (hrun ▸ h.running.mpr hw) hw'
  · rw [hm, hc, h.manual]
  · rw [hc]
    exact h.callers
  · rw [hrun, hm]
    exact h.exclusive
  · intro t j hj
    cases t with
    | worker =>
      exact hchosen j (job_worker_eq_some.mp hj)
    | caller i =>
      rw [job, hc, h.callers_outside hw] at hj
      cases hj

/-- A step of a caller that is at work. -/
theorem of_caller (h : st.WorkInv) (hcall : st.callers caller ≠ .outside) {place : CallerAt}
    (hplace : place ≠ .outside) (hrun : st'.bgWorkRunning = st.bgWorkRunning)
    (hm : st'.manualCompactionRunning = st.manualCompactionRunning)
    (hw : st'.worker = st.worker)
    (hc : st'.callers = Function.update st.callers caller place)
    (hchosen : ∀ work, place = .working work →
      (Job.compaction work).base = st'.current ∧ (Job.compaction work).ChosenOn c st'.current) :
    st'.WorkInv := by
  have hothers : ∀ i, st'.callers i ≠ .outside → i = caller := by
    intro i hi
    by_contra hne
    rw [hc, Function.update_of_ne hne] at hi
    exact hne (h.callers i caller hi hcall)
  refine ⟨?_, ?_, ?_, ?_, ?_⟩
  · rw [hrun, hw, h.running]
  · rw [hm]
    refine iff_of_true (h.manual.mpr ⟨caller, hcall⟩) ⟨caller, ?_⟩
    rwa [hc, Function.update_self]
  · exact fun i j hi hj => (hothers i hi).trans (hothers j hj).symm
  · rw [hrun, hm]
    exact h.exclusive
  · intro t j hj
    cases t with
    | worker =>
      rw [job, hw, h.worker_waiting hcall] at hj
      cases hj
    | caller i =>
      obtain ⟨work, hwork, rfl⟩ := job_caller_eq_some.mp hj
      obtain rfl := hothers i (by rw [hwork]; simp)
      rw [hc, Function.update_self] at hwork
      exact hchosen work hwork

end WorkInv

/-- What an install does not touch. -/
theorem installWork_frame (sizing : Sizing) (st : Background c) (work : Work) :
    (st.installWork sizing work).bgWorkRunning = st.bgWorkRunning ∧
      (st.installWork sizing work).manualCompactionRunning = st.manualCompactionRunning ∧
      (st.installWork sizing work).worker = st.worker ∧
      (st.installWork sizing work).callers = st.callers := by
  rw [installWork]
  split_ifs
  · split <;> exact ⟨rfl, rfl, rfl, rfl⟩
  · rw [retireTableFileNumbers]
    split_ifs <;> exact ⟨rfl, rfl, rfl, rfl⟩

/-- The steps of writers, and of those who ask for work. -/
def Action.isWriter : Action → Bool
  | .rotate | .schedule | .lead _ | .append _ | .sync _ | .publish => true
  | _ => false

/-- **What a writer can do.** It does not touch the threads at work, the version, the tables and the
iterators. -/
theorem step_of_isWriter (sizing : Sizing) (st : Background c) {action : Action}
    (h : action.isWriter = true) :
    ∃ imm bgWorkScheduled bgError nextFileNumber group events, st.nextFileNumber ≤ nextFileNumber ∧
      st.step sizing action =
        { st with imm, bgWorkScheduled, bgError, nextFileNumber, group, events } := by
  cases action with
  | rotate =>
    rw [step, rotate]
    split_ifs
    · exact ⟨_, _, _, _, _, _, le_rfl, rfl⟩
    · exact ⟨_, _, _, _, _, _, Nat.le_succ _, rfl⟩
  | schedule => exact ⟨_, _, _, _, _, _, le_rfl, rfl⟩
  | lead | append | sync | publish =>
    simp only [step, lead, append, sync, publish]
    repeat' split
    all_goals exact ⟨_, _, _, _, _, _, le_rfl, rfl⟩
  | _ => cases h

theorem dropIterator_frame (st : Background c) (index : ℕ) :
    (st.dropIterator index).bgWorkRunning = st.bgWorkRunning ∧
      (st.dropIterator index).manualCompactionRunning = st.manualCompactionRunning ∧
      (st.dropIterator index).worker = st.worker ∧
      (st.dropIterator index).callers = st.callers ∧
      (st.dropIterator index).current = st.current := by
  rw [dropIterator]
  split_ifs
  · rw [releaseIterator]
    split_ifs <;> exact ⟨rfl, rfl, rfl, rfl, rfl⟩
  · exact ⟨rfl, rfl, rfl, rfl, rfl⟩

namespace WorkInv

section

variable (h : st.WorkInv)
include h

private theorem workerStart : st.workerStart.WorkInv := by
  rw [Background.workerStart]
  split
  · rename_i hw
    split_ifs with hwait herr
    · exact h
    · exact h.of_eq rfl rfl rfl rfl rfl
    · have hm : st.manualCompactionRunning = false := by
        simp only [Bool.or_eq_true, not_or, Bool.not_eq_true] at hwait
        exact hwait.1
      have ho : ∀ i, st.callers i = .outside := fun i => by
        by_contra hi
        exact absurd (h.manual.mpr ⟨i, hi⟩) (by simp [hm])
      refine ⟨by simp, h.manual, h.callers, by simp [hm], fun t j hj => ?_⟩
      cases t with
      | worker => cases hj
      | caller i =>
        rw [job, ho] at hj
        cases hj
  · exact h

private theorem workerLook : st.workerLook.WorkInv := by
  rw [Background.workerLook]
  split
  · rename_i hw
    refine h.of_worker (by simp [hw]) ?_ rfl rfl rfl ?_
    · dsimp only
      split_ifs <;> simp
    · dsimp only
      intro j hj
      split_ifs at hj
  · exact h

private theorem workerCollect (entries : List Entry) : (st.workerCollect entries).WorkInv := by
  rw [Background.workerCollect]
  split
  · rename_i hw
    split_ifs
    · split
      · rename_i first last hfst hlast
        refine h.of_worker (by simp [hw]) (by simp) rfl rfl rfl ?_
        rintro j ⟨⟩
        exact ⟨rfl, rfl⟩
      · exact h.of_worker (by simp [hw]) (by simp) rfl rfl rfl (by simp)
    · exact h.of_worker (by simp [hw]) (by simp) rfl rfl rfl (by simp)
  · exact h

private theorem workerBuild : st.workerBuild.WorkInv := by
  rw [Background.workerBuild]
  split
  · rename_i base level table hw
    have hchosen := h.chosen .worker (.flush base level table false) (by rw [job, hw])
    refine h.of_worker (by simp [hw]) (by simp) rfl rfl rfl ?_
    rintro j ⟨⟩
    exact hchosen
  · exact h

private theorem workerPick (fileToCompact : Option (ℕ × ℕ)) (compactPointer : ℕ → Bytes) :
    (st.workerPick fileToCompact compactPointer).WorkInv := by
  rw [Background.workerPick]
  split
  · rename_i hw
    split
    · exact h.of_worker (by simp [hw]) (by simp) rfl rfl rfl (by simp)
    · rename_i x hx
      have hpicks : st.current.Picks c x := .inl ⟨fileToCompact, compactPointer, hx⟩
      refine h.of_worker (by simp [hw]) (by simp) rfl rfl rfl ?_
      rintro j ⟨⟩
      exact ⟨(Version.Picks.inputs hpicks).1, hpicks⟩
  · exact h

private theorem workerOutput (first : Entry) (more : List Entry) :
    (st.workerOutput first more).WorkInv := by
  rw [Background.workerOutput]
  split
  · rename_i work hw
    split_ifs
    · exact h
    · have hchosen := h.chosen .worker (.compaction work) (by rw [job, hw])
      refine h.of_worker (by simp [hw]) (by simp) rfl rfl rfl ?_
      rintro j ⟨⟩
      exact hchosen
  · exact h

private theorem workerFail (e : Status) : (st.workerFail e).WorkInv := by
  rw [Background.workerFail]
  split
  · rename_i hw
    exact h.of_worker (by simp [hw]) (by simp) rfl rfl rfl (by simp)
  · exact h

private theorem workerInstall (fault : Option Status) :
    (st.workerInstall sizing fault).WorkInv := by
  unfold Background.workerInstall
  split
  · rename_i hw
    exact h.of_worker (by simp [hw]) (by simp) rfl rfl rfl (by simp)
  · rename_i hw
    exact h.of_worker (by simp [hw]) (by simp) rfl rfl rfl (by simp)
  · rename_i work hw
    obtain ⟨hrun, hm, -, hc⟩ := st.installWork_frame sizing work
    exact h.of_worker (by simp [hw]) (by simp) hrun hm hc (by simp)
  · rename_i hw
    exact h.of_worker (by simp [hw]) (by simp) rfl rfl rfl (by simp)
  · exact h

/-- The worker goes back to waiting. -/
private theorem of_ended {result : Result Unit} (hw : st.worker = .ended result)
    (hrun : st'.bgWorkRunning = false) (hw' : st'.worker = .waiting)
    (hm : st'.manualCompactionRunning = st.manualCompactionRunning)
    (hc : st'.callers = st.callers) : st'.WorkInv := by
  have ho := h.callers_outside (by simp [hw])
  refine ⟨by simp [hrun, hw'], ?_, ?_, by simp [hrun], fun t j hj => ?_⟩
  · rw [hm, hc, h.manual]
  · rw [hc]
    exact h.callers
  · cases t with
    | worker =>
      rw [job, hw'] at hj
      cases hj
    | caller i =>
      rw [job, hc, ho] at hj
      cases hj

private theorem workerEnd : st.workerEnd.WorkInv := by
  rw [Background.workerEnd]
  split
  · rename_i hw
    exact h.of_ended hw rfl rfl rfl rfl
  · rename_i hw
    exact h.of_ended hw rfl rfl rfl rfl
  · exact h

private theorem callerPick (caller level : ℕ) (first last : Option Bytes) :
    (st.callerPick caller level first last).WorkInv := by
  rw [Background.callerPick]
  split
  · rename_i hcall
    split_ifs with hwait
    · exact h
    · simp only [Bool.or_eq_true, not_or, Bool.not_eq_true] at hwait
      obtain ⟨⟨⟨-, hrun⟩, -⟩, hm⟩ := hwait
      split
      · exact h
      · rename_i x hx
        have hpicks : st.current.Picks c x := .inr ⟨level, first, last, hx⟩
        have ho : ∀ i, st.callers i = .outside := fun i => by
          by_contra hi
          exact absurd (h.manual.mpr ⟨i, hi⟩) (by simp [hm])
        have hwaiting : st.worker = .waiting := by
          by_contra hw
          exact absurd (h.running.mpr hw) (by simp [hrun])
        have hothers : ∀ i, Function.update st.callers caller (.working { compaction := x }) i ≠
            .outside → i = caller := fun i hi => by
          by_contra hne
          rw [Function.update_of_ne hne, ho] at hi
          exact hi rfl
        refine ⟨h.running, ?_, ?_, ?_, ?_⟩
        · exact iff_of_true rfl ⟨caller, by simp [goto]⟩
        · exact fun i j hi hj => (hothers i hi).trans (hothers j hj).symm
        · simp [goto, hrun]
        · intro t j hj
          cases t with
          | worker =>
            simp only [job, goto, hwaiting] at hj
            cases hj
          | caller i =>
            by_cases hi : i = caller
            · subst hi
              simp only [job, goto, Function.update_self, Option.some.injEq] at hj
              subst hj
              exact ⟨(Version.Picks.inputs hpicks).1, hpicks⟩
            · simp only [job, goto, Function.update_of_ne hi, ho] at hj
              cases hj
  · exact h

private theorem callerOutput (caller : ℕ) (first : Entry) (more : List Entry) :
    (st.callerOutput caller first more).WorkInv := by
  rw [Background.callerOutput]
  split
  · rename_i work hcall
    split_ifs
    · exact h
    · have hchosen := h.chosen (.caller caller) (.compaction work) (by rw [job, hcall])
      refine h.of_caller (by simp [hcall]) (by simp) rfl rfl rfl rfl ?_
      rintro work' ⟨⟩
      exact hchosen
  · exact h

private theorem callerFail (caller : ℕ) (e : Status) : (st.callerFail caller e).WorkInv := by
  rw [Background.callerFail]
  split
  · rename_i hcall
    exact h.of_caller (by simp [hcall]) (by simp) rfl rfl rfl rfl (by simp)
  · exact h

private theorem callerInstall (caller : ℕ) (fault : Option Status) :
    (st.callerInstall sizing caller fault).WorkInv := by
  unfold Background.callerInstall
  split
  · rename_i work hcall
    obtain ⟨hrun, hm, hw, hc⟩ := st.installWork_frame sizing work
    have hne : st.callers caller ≠ .outside := by simp [hcall]
    have hplace : Function.update (st.installWork sizing work).callers caller (.ended (.ok ())) =
        Function.update st.callers caller (.ended (.ok ())) := by rw [hc]
    exact h.of_caller hne (by simp) hrun hm hw hplace (by simp)
  · rename_i hcall
    exact h.of_caller (by simp [hcall]) (by simp) rfl rfl rfl rfl (by simp)
  · exact h

private theorem callerEnd (caller : ℕ) : (st.callerEnd caller).WorkInv := by
  rw [Background.callerEnd]
  split
  · rename_i result hcall
    have hne : st.callers caller ≠ .outside := by simp [hcall]
    have hwaiting := h.worker_waiting hne
    have ho : ∀ i, Function.update st.callers caller .outside i = .outside := fun i => by
      by_cases hi : i = caller
      · rw [hi, Function.update_self]
      · rw [Function.update_of_ne hi]
        by_contra hother
        exact hi (h.callers i caller hother hne)
    refine ⟨h.running, ?_, ?_, by simp [goto], fun t j hj => ?_⟩
    · simp [goto, ho]
    · exact fun i j hi _ => absurd (ho i) hi
    · cases t with
      | worker =>
        simp only [job, goto, hwaiting] at hj
        cases hj
      | caller i =>
        simp only [job, goto, ho] at hj
        cases hj
  · exact h

/-- **Every step keeps the threads apart.** -/
theorem step (action : Action) : (st.step sizing action).WorkInv := by
  by_cases hwriter : action.isWriter = true
  · obtain ⟨_, _, _, _, _, _, -, heq⟩ := st.step_of_isWriter sizing hwriter
    rw [heq]
    exact h.of_eq rfl rfl rfl rfl rfl
  cases action with
  | rotate | schedule | lead | append | sync | publish => exact absurd rfl hwriter
  | newIterator =>
    rw [Background.step, newIterator]
    split_ifs
    · exact h
    · exact h.of_eq rfl rfl rfl rfl rfl
  | dropIterator index =>
    obtain ⟨hrun, hm, hw, hc, hcur⟩ := st.dropIterator_frame index
    exact h.of_eq hrun hm hw hc hcur
  | workerStart => exact h.workerStart
  | workerLook => exact h.workerLook
  | workerCollect entries => exact h.workerCollect entries
  | workerBuild => exact h.workerBuild
  | workerPick fileToCompact compactPointer => exact h.workerPick fileToCompact compactPointer
  | workerOutput first more => exact h.workerOutput first more
  | workerFail e => exact h.workerFail e
  | workerInstall fault => exact h.workerInstall fault
  | workerEnd => exact h.workerEnd
  | callerPick caller level first last => exact h.callerPick caller level first last
  | callerOutput caller first more => exact h.callerOutput caller first more
  | callerFail caller e => exact h.callerFail caller e
  | callerInstall caller fault => exact h.callerInstall caller fault
  | callerEnd caller => exact h.callerEnd caller

end

theorem opened (current : Version) (nextFileNumber : ℕ) (tableFiles : Finset ℕ) :
    (Background.opened c current nextFileNumber tableFiles).WorkInv where
  running := by simp [Background.opened]
  manual := by simp [Background.opened]
  callers := by simp [Background.opened]
  exclusive := by simp [Background.opened]
  chosen t j hj := by cases t <;> cases hj

theorem run (current : Version) (nextFileNumber : ℕ) (tableFiles : Finset ℕ)
    (actions : List Action) :
    (Runs.run (Background.step sizing) (Background.opened c current nextFileNumber tableFiles)
      actions).WorkInv :=
  Runs.invariant_of_step (fun _ action h => h.step action)
    (opened current nextFileNumber tableFiles)

theorem installsOnBase (h : st.WorkInv) : st.InstallsOnBase where
  exclusive t t' ht ht' := by
    have hw : (st.job .worker).isSome → st.worker ≠ .waiting := fun hsome hwaiting => by
      simp [job, hwaiting] at hsome
    have hcall : ∀ i, (st.job (.caller i)).isSome → st.callers i ≠ .outside :=
      fun i hsome hi => by
      simp [job, hi] at hsome
    cases t with
    | worker =>
      cases t' with
      | worker => rfl
      | caller j => exact absurd (h.callers_outside (hw ht) j) (hcall j ht')
    | caller i =>
      cases t' with
      | worker => exact absurd (h.callers_outside (hw ht') i) (hcall i ht)
      | caller j => rw [h.callers i j (hcall i ht) (hcall j ht')]
  base := h.chosen
  deleted t j hj := by
    obtain ⟨-, hchosen⟩ := h.chosen t j hj
    cases j with
    | flush => simp [Job.deleted]
    | compaction work =>
      obtain ⟨-, hinputs0, hinputs1⟩ := Version.Picks.inputs hchosen
      intro p hp
      rcases List.mem_append.mp hp with hp | hp
      · obtain ⟨f, hf, rfl⟩ := List.mem_map.mp hp
        exact hinputs0 hf
      · obtain ⟨f, hf, rfl⟩ := List.mem_map.mp hp
        exact hinputs1 hf

end WorkInv

/-- **Edits are installed on the version they were computed from**, in every run of the worker and
any number of callers, writers and readers. -/
theorem installsOnBase_run (c : Comparator) (sizing : Sizing) (current : Version)
    (nextFileNumber : ℕ) (tableFiles : Finset ℕ) (actions : List Action) :
    (Runs.run (step sizing) (opened c current nextFileNumber tableFiles) actions).InstallsOnBase :=
  (WorkInv.run current nextFileNumber tableFiles actions).installsOnBase

end Background
end PulsearcDb
