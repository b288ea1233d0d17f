import PulsearcDb.Foundation.Runs
import Mathlib.Order.Nat
import Mathlib.Algebra.Ring.Nat

/-!
# Writers, flushers and the background worker

The threads of a database (`db_impl/db_impl.rs`) share `DBImplCore` behind a mutex, and three kinds
of them let go of it on the way. The leader of a writer group takes the log handle and a clone of
the memtable with it, appends and inserts without the mutex, and publishes. A `force_flush` caller
waits for the writers, then for the immutable memtable, and rotates memtable and log. The background
worker collects the immutable memtable, builds a table without the mutex, and installs it. A step of
the model is a section of one of them that holds the mutex, or a piece of work between two such
sections; any number of writers and callers take their steps in any order, without I/O errors.

A memtable is known by its number, for a clone goes on to mean the memtable it was made of after
`mem` has been replaced. In the same way a log handle is known by the number of its file, also when
`log_file_number` has moved on.

`force_flush` looks at the writer queue only before it waits for the immutable memtable. If it
rotates while a group is on its way, the group inserts into the memtable that has just become
immutable, or is already gone, and gives the old log handle back. As long as no rotation does so, no
acknowledged record is lost.
-/

namespace PulsearcDb

open List

variable {ρ : Type*}

/-- A writer group between the two sections of its leader that hold the mutex. -/
structure InFlight (ρ : Type*) where
  count : ℕ
  records : List ρ
  /-- The file behind the log handle that was taken. -/
  log : ℕ
  /-- The memtable that was cloned. -/
  mem : ℕ
  appended : Bool := false
  inserted : Bool := false
  deriving DecidableEq

/-- Where a `force_flush` caller stands: before or in the loop that waits for the writers, in the
loop that waits for the immutable memtable, or in the last loop. -/
inductive FlushCall
  | start
  | waitImm
  | drain
  deriving DecidableEq

/-- Where the background worker stands in `compact_memtable_async`. -/
inductive Worker (ρ : Type*)
  | idle
  | collected (entries : List ρ) (logNumber : ℕ)
  | built (entries : List ρ) (logNumber : ℕ)
  deriving DecidableEq

/-- What the threads share, and where each of them stands. -/
structure Shared (ρ : Type*) where
  /-- The batches of the queued writers. -/
  writers : List (List ρ) := []
  mem : ℕ := 0
  imm : Option ℕ := none
  memtables : ℕ → List ρ := fun _ => []
  nextMemtable : ℕ := 1
  memMemoryUsage : ℕ := 0
  /-- `log_writer` and `log_file`, which are taken and put back together. -/
  logWriter : Option ℕ
  logFileNumber : ℕ
  /-- The records of the log files that exist. -/
  logs : ℕ → Option (List ρ)
  nextFileNumber : ℕ
  /-- The log number in the manifest. -/
  logNumber : ℕ
  /-- The records of the tables of the current version, which the manifest records. -/
  tables : List ρ
  inFlight : Option (InFlight ρ) := none
  flushCalls : ℕ → FlushCall := fun _ => .start
  worker : Worker ρ := .idle
  /-- The batches for which `write_owned` has returned `Ok`. -/
  acked : List (List ρ) := []

namespace Shared

/-- A database right after `open`. -/
def opened (logNumber : ℕ) (tables : List ρ) : Shared ρ :=
  { logWriter := some logNumber, logFileNumber := logNumber
    logs := Function.update (fun _ => none) logNumber (some [])
    nextFileNumber := logNumber + 1, logNumber, tables }

/-- The steps of the writers, the flushers and the worker. -/
inductive Action (ρ : Type*)
  | enqueue (batch : List ρ)
  | makeRoom
  | take (count : ℕ)
  | append
  | insert
  | publish
  | forceFlush (caller : ℕ)
  | collect
  | build
  | install

/-- `switch_active_log`, and the memtable becomes the immutable one. -/
def rotate (st : Shared ρ) : Shared ρ :=
  { st with
    logs := Function.update st.logs st.nextFileNumber (some [])
    logWriter := some st.nextFileNumber
    logFileNumber := st.nextFileNumber
    nextFileNumber := st.nextFileNumber + 1
    imm := some st.mem
    mem := st.nextMemtable
    nextMemtable := st.nextMemtable + 1
    memMemoryUsage := 0 }

/-- The leader takes the log handle and clones the memtable for the first `count` writers. -/
def take (st : Shared ρ) (count : ℕ) : Shared ρ :=
  if st.inFlight = none ∧ 0 < count ∧ count ≤ st.writers.length then
    match st.logWriter with
    | none => st
    | some log =>
      { st with
        logWriter := none
        inFlight := some { count, records := (st.writers.take count).flatten, log, mem := st.mem } }
  else st

/-- The append to the file behind the handle, deleted or not. -/
def append (st : Shared ρ) : Shared ρ :=
  match st.inFlight with
  | none => st
  | some g =>
    if g.appended then st
    else
      { st with
        logs := Function.update st.logs g.log ((st.logs g.log).map (· ++ g.records))
        inFlight := some { g with appended := true } }

/-- The insertion into the cloned memtable. -/
def insert (st : Shared ρ) : Shared ρ :=
  match st.inFlight with
  | none => st
  | some g =>
    if g.appended && !g.inserted then
      { st with
        memtables := Function.update st.memtables g.mem (st.memtables g.mem ++ g.records)
        inFlight := some { g with inserted := true } }
    else st

/-- The leader takes the mutex again, puts the log handle back and finishes its group. -/
def publish (bytes : ρ → ℕ) (st : Shared ρ) : Shared ρ :=
  match st.inFlight with
  | none => st
  | some g =>
    if g.inserted then
      { st with
        memMemoryUsage := st.memMemoryUsage + (g.records.map bytes).sum
        logWriter := some g.log
        inFlight := none
        acked := st.acked ++ st.writers.take g.count
        writers := st.writers.drop g.count }
    else st

/-- One section of `force_flush` that holds the mutex. Only the first loop looks at the writers. -/
def forceFlush (st : Shared ρ) (caller : ℕ) : Shared ρ :=
  let goto (st : Shared ρ) (call : FlushCall) : Shared ρ :=
    { st with flushCalls := Function.update st.flushCalls caller call }
  match st.flushCalls caller with
  | .start =>
    if st.writers ≠ [] then st
    else if st.memMemoryUsage = 0 ∧ st.imm = none then st
    else if st.imm = none then goto st.rotate .drain
    else goto st .waitImm
  | .waitImm => if st.imm = none then goto st.rotate .drain else st
  | .drain => if st.imm = none then goto st .start else st

/-- The worker collects the immutable memtable. An empty one is given up. -/
def collect (st : Shared ρ) : Shared ρ :=
  match st.worker, st.imm with
  | .idle, some m =>
    if (st.memtables m).isEmpty then { st with imm := none }
    else
      { st with
        nextFileNumber := st.nextFileNumber + 1
        worker := .collected (st.memtables m) st.logFileNumber }
  | _, _ => st

/-- The worker writes the table. -/
def build (st : Shared ρ) : Shared ρ :=
  match st.worker with
  | .collected entries logNumber => { st with worker := .built entries logNumber }
  | _ => st

/-- `log_and_apply`, `delete_obsolete_logs`, and the immutable memtable is dropped. -/
def install (st : Shared ρ) : Shared ρ :=
  match st.worker with
  | .built entries logNumber =>
    { st with
      tables := st.tables ++ entries
      logNumber
      logs := fun number => if number < st.logFileNumber then none else st.logs number
      imm := none
      worker := .idle }
  | _ => st

/-- A step. The bytes that a record adds to a memtable and the size limit are options of
the model. -/
def step (bytes : ρ → ℕ) (writeBufferSize : ℕ) (st : Shared ρ) : Action ρ → Shared ρ
  | .enqueue batch => { st with writers := st.writers ++ [batch] }
  | .makeRoom =>
    if st.writers ≠ [] ∧ st.inFlight = none ∧ writeBufferSize < st.memMemoryUsage ∧
      st.imm = none then
      st.rotate
    else st
  | .take count => st.take count
  | .append => st.append
  | .insert => st.insert
  | .publish => st.publish bytes
  | .forceFlush caller => st.forceFlush caller
  | .collect => st.collect
  | .build => st.build
  | .install => st.install

/-- A reader finds the record. -/
def Visible (st : Shared ρ) (r : ρ) : Prop :=
  r ∈ st.memtables st.mem ∨ (∃ m ∈ st.imm, r ∈ st.memtables m) ∨ r ∈ st.tables

/-- A reopen finds the record. -/
def Durable (st : Shared ρ) (r : ρ) : Prop :=
  r ∈ st.tables ∨ ∃ number, st.logNumber ≤ number ∧ ∃ l ∈ st.logs number, r ∈ l

/-- A `force_flush` caller that has waited for the immutable memtable does not rotate while a writer
group is on its way. -/
def RotatesAlone (st : Shared ρ) : Action ρ → Prop
  | .forceFlush caller => st.flushCalls caller = .waitImm → st.imm = none → st.inFlight = none
  | _ => True

/-! ### The invariant -/

/-- A record that is in the log under its number in the manifest, or behind it. -/
def Logged (st : Shared ρ) (r : ρ) : Prop :=
  ∃ number, st.logNumber ≤ number ∧ ∃ l ∈ st.logs number, r ∈ l

/-- The group works on the current log and memtable, and has done what it says. -/
structure GroupOk (writers : List (List ρ)) (logFileNumber : ℕ) (logged : Option (List ρ)) (mem : ℕ)
    (memtable : List ρ) (g : InFlight ρ) : Prop where
  log : g.log = logFileNumber
  mem : g.mem = mem
  count_pos : 0 < g.count
  count_le : g.count ≤ writers.length
  records : g.records = (writers.take g.count).flatten
  appended : g.appended = true → ∃ l ∈ logged, ∀ r ∈ g.records, r ∈ l
  inserted : g.inserted = true → g.appended = true ∧ ∀ r ∈ g.records, r ∈ memtable

/-- The worker has collected the immutable memtable under the current log number. -/
def WorkerOk (logFileNumber : ℕ) (immutable : Option (List ρ)) : Worker ρ → Prop
  | .idle => True
  | .collected entries logNumber | .built entries logNumber =>
    logNumber = logFileNumber ∧ immutable = some entries

/-- What holds in the states of a run in which every rotation is alone. -/
structure Inv (st : Shared ρ) : Prop where
  mem_lt : st.mem < st.nextMemtable
  imm_lt : ∀ m ∈ st.imm, m < st.mem
  new_mem : ∀ m, st.nextMemtable ≤ m → st.memtables m = []
  log_lt : st.logFileNumber < st.nextFileNumber
  logNumber_le : st.logNumber ≤ st.logFileNumber
  /-- The records of the memtable are in the current log. -/
  mem_logged : ∃ l ∈ st.logs st.logFileNumber, ∀ r ∈ st.memtables st.mem, r ∈ l
  imm_logged : ∀ m ∈ st.imm, ∀ r ∈ st.memtables m, st.Logged r
  group : ∀ g ∈ st.inFlight, GroupOk st.writers st.logFileNumber (st.logs st.logFileNumber) st.mem
    (st.memtables st.mem) g
  logWriter : st.inFlight = none → st.logWriter = some st.logFileNumber
  worker : WorkerOk st.logFileNumber (st.imm.map st.memtables) st.worker
  visible : ∀ batch ∈ st.acked, ∀ r ∈ batch, st.Visible r

variable {st : Shared ρ} {bytes : ρ → ℕ} {writeBufferSize : ℕ}

theorem Inv.durable (h : st.Inv) {r : ρ} (hr : st.Visible r) : st.Durable r := by
  rcases hr with hr | ⟨m, hm, hr⟩ | hr
  · obtain ⟨l, hl, hmem⟩ := h.mem_logged
    exact .inr ⟨_, h.logNumber_le, l, hl, hmem r hr⟩
  · exact .inr (h.imm_logged m hm r hr)
  · exact .inl hr

theorem inv_opened (logNumber : ℕ) (tables : List ρ) : (opened logNumber tables).Inv where
  mem_lt := Nat.zero_lt_one
  imm_lt _ hm := by cases hm
  new_mem _ _ := rfl
  log_lt := Nat.lt_succ_self _
  logNumber_le := le_rfl
  mem_logged := ⟨[], by simp [opened], fun _ hr => hr⟩
  imm_logged _ hm := by cases hm
  group _ hg := by cases hg
  logWriter _ := rfl
  worker := trivial
  visible _ hb := absurd hb not_mem_nil

section

variable (h : st.Inv)
include h

/-- **A rotation with no group on its way keeps the invariant.** -/
theorem Inv.rotate (himm : st.imm = none) (hgrp : st.inFlight = none) : st.rotate.Inv := by
  have hold : ∀ number, number ≤ st.logFileNumber → st.rotate.logs number = st.logs number :=
    fun number hle => Function.update_of_ne (hle.trans_lt h.log_lt).ne _ _
  have hwork : st.worker = .idle := by
    rcases hw : st.worker with _ | ⟨entries, n⟩ | ⟨entries, n⟩
    · rfl
    all_goals
      have hok := h.worker
      rw [hw] at hok
      rw [himm] at hok
      cases hok.2
  exact
    { mem_lt := Nat.lt_succ_self _
      imm_lt := by
        rintro _ ⟨⟩
        exact h.mem_lt
      new_mem := fun m hm => h.new_mem m (Nat.le_of_succ_le hm)
      log_lt := Nat.lt_succ_self _
      logNumber_le := h.logNumber_le.trans h.log_lt.le
      mem_logged := by
        refine ⟨[], Option.mem_def.mpr (Function.update_self _ _ _), fun r hr => ?_⟩
        exact absurd hr (h.new_mem _ le_rfl ▸ not_mem_nil)
      imm_logged := by
        rintro _ ⟨⟩ r hr
        obtain ⟨l, hl, hmem⟩ := h.mem_logged
        refine ⟨st.logFileNumber, h.logNumber_le, l, ?_, hmem r hr⟩
        rwa [hold _ le_rfl]
      group := fun g hg => by
        rw [Shared.rotate, hgrp] at hg
        cases hg
      logWriter := fun _ => rfl
      worker := by
        rw [Shared.rotate, hwork]
        trivial
      visible := fun batch hb r hr => by
        rcases h.visible batch hb r hr with hmem | ⟨m, hm, -⟩ | htab
        · exact .inr (.inl ⟨st.mem, rfl, hmem⟩)
        · rw [himm] at hm
          cases hm
        · exact .inr (.inr htab) }

theorem Inv.take (count : ℕ) : (st.take count).Inv := by
  rw [Shared.take]
  split_ifs with hcnt
  · rw [h.logWriter hcnt.1]
    refine { h with group := ?_, logWriter := fun hnone => by cases hnone }
    rintro _ ⟨⟩
    exact
      { log := rfl
        mem := rfl
        count_pos := hcnt.2.1
        count_le := hcnt.2.2
        records := rfl
        appended := fun happ => by cases happ
        inserted := fun hins => by cases hins }
  · exact h

/-- The log only grows by an append. -/
theorem Inv.append : st.append.Inv := by
  rw [Shared.append]
  rcases hg : st.inFlight with _ | g
  · exact h
  · dsimp only
    split_ifs with happ
    · exact h
    · have hok := h.group g hg
      obtain ⟨l, hl, hmem⟩ := h.mem_logged
      have hnew : Function.update st.logs g.log ((st.logs g.log).map (· ++ g.records))
          st.logFileNumber = some (l ++ g.records) := by
        rw [← hok.log, Function.update_self, hok.log, Option.mem_def.mp hl]
        rfl
      have hgrows : ∀ number, ∀ l ∈ st.logs number, ∃ l' ∈ Function.update st.logs g.log
          ((st.logs g.log).map (· ++ g.records)) number, ∀ r ∈ l, r ∈ l' := by
        intro number l hl
        by_cases heq : number = g.log
        · subst heq
          refine ⟨l ++ g.records, ?_, fun r hr => mem_append_left _ hr⟩
          rw [Function.update_self, Option.mem_def.mp hl]
          rfl
        · refine ⟨l, ?_, fun r hr => hr⟩
          rwa [Function.update_of_ne heq]
      exact { h with
        mem_logged := ⟨_, hnew, fun r hr => mem_append_left _ (hmem r hr)⟩
        imm_logged := fun m hm r hr => by
          obtain ⟨number, hle, l, hl, hr⟩ := h.imm_logged m hm r hr
          obtain ⟨l', hl', hsub⟩ := hgrows number l hl
          exact ⟨number, hle, l', hl', hsub r hr⟩
        group := by
          rintro _ ⟨⟩
          exact { hok with
            appended := fun _ => ⟨_, hnew, fun r hr => mem_append_right _ hr⟩
            inserted := fun hins => absurd (hok.inserted hins).1 happ }
        logWriter := fun hnone => by cases hnone }

/-- The insertion goes to the current memtable and leaves the immutable one as it is. -/
theorem Inv.insert : st.insert.Inv := by
  rw [Shared.insert]
  rcases hg : st.inFlight with _ | g
  · exact h
  · dsimp only
    split_ifs with hready
    · have hok := h.group g hg
      rw [Bool.and_eq_true, Bool.not_eq_true'] at hready
      have hmem : Function.update st.memtables g.mem (st.memtables g.mem ++ g.records) st.mem =
          st.memtables st.mem ++ g.records := by
        rw [← hok.mem, Function.update_self]
      have himm : ∀ m ∈ st.imm, Function.update st.memtables g.mem
          (st.memtables g.mem ++ g.records) m = st.memtables m := fun m hm =>
        Function.update_of_ne (hok.mem ▸ (h.imm_lt m hm).ne) _ _
      obtain ⟨l, hl, hlog⟩ := h.mem_logged
      obtain ⟨l', hl', happ⟩ := hok.appended hready.1
      obtain rfl : l = l' := Option.mem_unique hl hl'
      have hne : ∀ m, st.nextMemtable ≤ m → m ≠ g.mem := fun m hm =>
        hok.mem ▸ (h.mem_lt.trans_le hm).ne'
      refine { h with
        new_mem := fun m hm => (Function.update_of_ne (hne m hm) _ _).trans (h.new_mem m hm)
        mem_logged := ⟨l, hl, fun r hr => ?_⟩
        imm_logged := fun m hm r hr => h.imm_logged m hm r (himm m hm ▸ hr)
        group := ?_
        logWriter := fun hnone => by cases hnone
        worker := ?_
        visible := fun batch hb r hr => ?_ }
      · dsimp only at hr
        rw [hmem] at hr
        rcases mem_append.mp hr with hr | hr
        · exact hlog r hr
        · exact happ r hr
      · rintro _ ⟨⟩
        dsimp only
        rw [hmem]
        exact { hok with inserted := fun _ => ⟨hready.1, fun r hr => mem_append_right _ hr⟩ }
      · dsimp only
        rw [Option.map_congr himm]
        exact h.worker
      · rcases h.visible batch hb r hr with hr | ⟨m, hm, hr⟩ | hr
        · left
          dsimp only
          rw [hmem]
          exact mem_append_left _ hr
        · refine .inr (.inl ⟨m, hm, ?_⟩)
          dsimp only
          rwa [himm m hm]
        · exact .inr (.inr hr)
    · exact h

theorem Inv.publish : (st.publish bytes).Inv := by
  rw [Shared.publish]
  rcases hg : st.inFlight with _ | g
  · exact h
  · dsimp only
    split_ifs with hins
    · have hok := h.group g hg
      refine { h with
        group := fun g hg => by cases hg
        logWriter := fun _ => congrArg some hok.log
        visible := fun batch hb r hr => ?_ }
      rcases mem_append.mp hb with hb | hb
      · exact h.visible batch hb r hr
      · refine .inl ((hok.inserted hins).2 r ?_)
        rw [hok.records]
        exact mem_flatten.mpr ⟨batch, hb, hr⟩
    · exact h

theorem Inv.collect : st.collect.Inv := by
  rw [Shared.collect]
  split
  next m hwork himm =>
    split_ifs with hempty
    · rw [List.isEmpty_iff] at hempty
      refine { h with
        imm_lt := fun _ hm => by cases hm
        imm_logged := fun _ hm => by cases hm
        worker := ?_
        visible := fun batch hb r hr => ?_ }
      · dsimp only
        rw [hwork]
        trivial
      · rcases h.visible batch hb r hr with hr | ⟨m', hm', hr⟩ | hr
        · exact .inl hr
        · obtain rfl : m = m' := Option.some.inj (himm.symm.trans hm')
          rw [hempty] at hr
          cases hr
        · exact .inr (.inr hr)
    · exact { h with
        log_lt := h.log_lt.trans (Nat.lt_succ_self _)
        worker := ⟨rfl, by rw [himm, Option.map_some]⟩ }
  next => exact h

theorem Inv.build : st.build.Inv := by
  rw [Shared.build]
  split
  next entries logNumber hwork =>
    have hok := h.worker
    rw [hwork] at hok
    exact { h with worker := hok }
  next => exact h

/-- **The installation keeps the invariant.** The log of the memtable is the current one, which is
not deleted, and the records of the immutable memtable are in the new table. -/
theorem Inv.install : st.install.Inv := by
  rw [Shared.install]
  split
  next entries logNumber hwork =>
    have hok := h.worker
    rw [hwork] at hok
    obtain ⟨rfl, hents⟩ := hok
    obtain ⟨m, himm, rfl⟩ := Option.map_eq_some_iff.mp hents
    have hcur : (if st.logFileNumber < st.logFileNumber then none
        else st.logs st.logFileNumber) = st.logs st.logFileNumber := if_neg (lt_irrefl _)
    obtain ⟨l, hl, hmem⟩ := h.mem_logged
    refine { h with
      imm_lt := fun _ hm => by cases hm
      logNumber_le := le_rfl
      mem_logged := ⟨l, hcur.trans hl, hmem⟩
      imm_logged := fun _ hm => by cases hm
      group := fun g hg => ?_
      worker := trivial
      visible := fun batch hb r hr => ?_ }
    · dsimp only
      rw [hcur]
      exact h.group g hg
    · rcases h.visible batch hb r hr with hr | ⟨m', hm', hr⟩ | hr
      · exact .inl hr
      · obtain rfl : m = m' := Option.some.inj (himm.symm.trans hm')
        exact .inr (.inr (mem_append_right _ hr))
      · exact .inr (.inr (mem_append_left _ hr))
  next => exact h

theorem Inv.goto (flushCalls : ℕ → FlushCall) : Inv { st with flushCalls := flushCalls } :=
  { h with }

theorem Inv.forceFlush {caller : ℕ} (ha : st.RotatesAlone (.forceFlush caller)) :
    (st.forceFlush caller).Inv := by
  rw [Shared.forceFlush]
  split
  · split_ifs with hwriters hidle himm
    · exact h
    · exact h
    · refine (h.rotate himm ?_).goto _
      rw [ne_eq, not_not] at hwriters
      rcases hg : st.inFlight with _ | g
      · rfl
      · have hok := h.group g hg
        have hle := hok.count_le
        have hpos := hok.count_pos
        rw [hwriters, length_nil] at hle
        omega
    · exact h.goto _
  · next hcall =>
    split_ifs with himm
    · exact (h.rotate himm (ha hcall himm)).goto _
    · exact h
  · split_ifs
    · exact h.goto _
    · exact h

theorem Inv.enqueue (batch : List ρ) : Inv { st with writers := st.writers ++ [batch] } := by
  refine { h with group := fun g hg => ?_ }
  have hok := h.group g hg
  refine { hok with count_le := ?_, records := ?_ }
  · rw [length_append]
    exact hok.count_le.trans (Nat.le_add_right _ _)
  · rw [take_append_of_le_length hok.count_le]
    exact hok.records

/-- **One step keeps the invariant.** -/
theorem Inv.step {action : Action ρ} (ha : st.RotatesAlone action) :
    (st.step bytes writeBufferSize action).Inv := by
  cases action with
  | enqueue batch => exact h.enqueue batch
  | makeRoom =>
    rw [Shared.step]
    split_ifs with hroom
    · exact h.rotate hroom.2.2.2 hroom.2.1
    · exact h
  | take count => exact h.take count
  | append => exact h.append
  | insert => exact h.insert
  | publish => exact h.publish
  | forceFlush caller => exact h.forceFlush ha
  | collect => exact h.collect
  | build => exact h.build
  | install => exact h.install

end

/-- **No acknowledged record is lost**, in any order of the steps in which no caller rotates while a
writer group is on its way. -/
theorem acked_kept {logNumber : ℕ} {tables : List ρ} {actions : List (Action ρ)}
    (hrun : Runs.Along (step bytes writeBufferSize) RotatesAlone
      (opened logNumber tables) actions) :
    ∀ batch ∈ (Runs.run (step bytes writeBufferSize) (opened logNumber tables) actions).acked,
      ∀ r ∈ batch,
        (Runs.run (step bytes writeBufferSize) (opened logNumber tables) actions).Visible r ∧
          (Runs.run (step bytes writeBufferSize) (opened logNumber tables) actions).Durable r := by
  have h : (Runs.run (step bytes writeBufferSize) (opened logNumber tables) actions).Inv :=
    Runs.invariant (fun st action h ha => h.step ha) (inv_opened logNumber tables) hrun
  exact fun batch hb r hr => ⟨h.visible batch hb r hr, h.durable (h.visible batch hb r hr)⟩

/-! ### A rotation that is not alone -/

/-- The steps of a write by a writer that is alone in the queue, from the append on. -/
def finishWrite : List (Action ℕ) := [.append, .insert, .publish]

/-- Record 1 is written and a first caller rotates. A second caller waits for the immutable
memtable. After the installation a writer takes the log and the memtable for record 2, and then the
second caller rotates. The worker gives up the empty immutable memtable, and the writer finishes. -/
def lostActions : List (Action ℕ) :=
  [.enqueue [1], .take 1] ++ finishWrite ++
    [.forceFlush 1, .forceFlush 2, .collect, .build, .install,
      .enqueue [2], .take 1, .forceFlush 2, .collect] ++ finishWrite

instance (st : Shared ℕ) (r : ℕ) : Decidable (st.Visible r) :=
  inferInstanceAs (Decidable (_ ∨ _ ∨ _))

/-- **An acknowledged record that no reader finds.** -/
theorem lost_acked :
    [2] ∈ (Runs.run (step (fun _ => 1) 100) (opened 3 []) lostActions).acked ∧
      ¬ (Runs.run (step (fun _ => 1) 100) (opened 3 []) lostActions).Visible 2 := by
  decide +kernel

instance (st : Shared ℕ) (action : Action ℕ) : Decidable (st.RotatesAlone action) := by
  unfold RotatesAlone
  split <;> infer_instance

/-- The same steps, but the writer finishes before the second caller rotates. -/
def keptActions : List (Action ℕ) :=
  [.enqueue [1], .take 1] ++ finishWrite ++
    [.forceFlush 1, .forceFlush 2, .collect, .build, .install, .enqueue [2], .take 1] ++
      finishWrite ++
    [.forceFlush 2, .collect]

theorem kept_acked :
    (Runs.run (step (fun _ => 1) 100) (opened 3 []) keptActions).Visible 2 ∧
      (Runs.run (step (fun _ => 1) 100) (opened 3 []) keptActions).Durable 2 :=
  acked_kept (by decide +kernel) [2] (by decide +kernel) 2 (by decide)

end Shared
end PulsearcDb
