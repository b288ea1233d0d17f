import PulsearcDb.DbImpl.GroupCommit

/-!
# The writer queue

`write_owned` (`db_impl/db_impl.rs`) with any number of threads. A writer enqueues its batch. The
one at the front of the queue leads: it makes room, perhaps by a switch of the memtable and the log,
takes the batches of the writers behind it into its group, and then leaves the mutex to append, sync
and insert. Writers that arrive in between queue up behind the group. At the end the leader takes
the group off the queue, leaves the status in the slots of its followers and returns; a follower
returns when it finds a status in its slot, or leads when it finds itself at the front.

An action is one critical section, or one of the operations between them, or the background flush.
Files do not fail and no flush is forced. What the switches have put away stays in `switched`, so
that all that was written can be compared with the same batches written one by one.

`QueueInv` says what holds of the queue and its statuses in every state, and `exists_served` that no
writer is left waiting.
-/

namespace PulsearcDb

open Log List

/-! ### Groups -/

/-- The records of the batches of some writers, in their order. -/
def recordsOf (writers : List PendingWriter) : List WriteBatchRecord :=
  writers.flatMap fun w => w.batch.handled

@[simp] theorem recordsOf_append (writers more : List PendingWriter) :
    recordsOf (writers ++ more) = recordsOf writers ++ recordsOf more :=
  flatMap_append

/-- What `build_batch_group` has taken from a queue: the batch of the first `count` writers, synced
when one of them has asked for it. -/
structure GroupOf (writers : List PendingWriter) (updates : WriteBatch) (count : ℕ) (sync : Bool) :
    Prop where
  pos : 0 < count
  le : count ≤ writers.length
  valid : updates.Valid
  handled : updates.handled = recordsOf (writers.take count)
  sync : ∀ w ∈ writers.take count, w.sync = true → sync = true

theorem GroupOf.append {writers : List PendingWriter} {updates : WriteBatch} {count : ℕ}
    {sync : Bool} (h : GroupOf writers updates count sync) (more : List PendingWriter) :
    GroupOf (writers ++ more) updates count sync where
  pos := h.pos
  le := h.le.trans (by simp)
  valid := h.valid
  handled := by rw [take_append_of_le_length h.le, h.handled]
  sync := by rw [take_append_of_le_length h.le]; exact h.sync

private theorem groupLoop_spec {firstSync : Bool} {maxSize : ℕ} (hmax : maxSize < 2 ^ 32)
    {before after : List PendingWriter} {result : WriteBatch} {size : ℕ}
    (hgrp : GroupOf (before ++ after) result before.length firstSync)
    (hv : ∀ w ∈ after, w.batch.Valid) (hsize : result.handled.length ≤ size) :
    GroupOf (before ++ after) (groupLoop firstSync maxSize result size before.length after).1
      (groupLoop firstSync maxSize result size before.length after).2 firstSync := by
  induction after generalizing before result size with
  | nil => exact hgrp
  | cons w after ih =>
    rw [groupLoop]
    split_ifs with hsync hlarge
    · exact hgrp
    · exact hgrp
    · rw [forall_mem_cons] at hv
      have hle := hv.1.wellFormed.length_handled_le
      obtain ⟨hv', hhandled⟩ := hgrp.valid.append hv.1 (by omega)
      have htake : (before ++ w :: after).take before.length = before := take_left
      have htake' : (before ++ w :: after).take (before.length + 1) = before ++ [w] := by
        rw [append_cons, take_left' (by simp)]
      have hnext : GroupOf (before ++ [w] ++ after) (result.append w.batch) (before ++ [w]).length
          firstSync := by
        rw [← append_cons, length_append, length_singleton]
        refine ⟨Nat.succ_pos _, by simp, hv', ?_, fun w' hw' => ?_⟩
        · rw [hhandled, hgrp.handled, htake, htake', recordsOf_append]
          simp [recordsOf]
        · rw [htake', mem_append, mem_singleton] at hw'
          rcases hw' with hw' | rfl
          · exact hgrp.sync w' (htake.symm ▸ hw')
          · intro hw
            simpa [hw] using hsync
      have hcnt : before.length + 1 = (before ++ [w]).length := by simp
      rw [hcnt, append_cons]
      exact ih hnext hv.2 (by rw [hhandled, length_append]; omega)

/-- **The group of a queue.** The limit on its size keeps its count within the width of
the counter. -/
theorem groupOf_buildBatchGroup {first : PendingWriter} {rest : List PendingWriter}
    (hv : ∀ w ∈ first :: rest, w.batch.Valid) :
    GroupOf (first :: rest) (buildBatchGroup first rest).1 (buildBatchGroup first rest).2.1
      (buildBatchGroup first rest).2.2 := by
  have hmax : (if first.batch.approximateSize ≤ maxBatchGroupOverhead then
      first.batch.approximateSize + maxBatchGroupOverhead else maxBatchGroupSize) < 2 ^ 32 := by
    simp only [maxBatchGroupOverhead, maxBatchGroupSize, Nat.shiftLeft_eq]
    split_ifs <;> omega
  rw [forall_mem_cons] at hv
  have hfst : GroupOf ([first] ++ rest) first.batch [first].length first.sync :=
    ⟨Nat.one_pos, by simp, hv.1, by simp [recordsOf], by simp⟩
  exact groupLoop_spec hmax hfst hv.2 hv.1.wellFormed.length_handled_le

/-! ### The queue -/

/-- A writer with its id. A follower has installed a slot for its status. -/
structure QueuedWriter extends PendingWriter where
  id : ℕ
  slot : Bool
  deriving DecidableEq

/-- The group that its leader is writing while the mutex is free. -/
structure GroupInFlight where
  updates : WriteBatch
  count : ℕ
  sync : Bool
  status : Result Unit := .ok ()
  appended : Bool := false
  synced : Bool := false
  inserted : Bool := false
  bytesAdded : ℕ := 0

/-- The database with its writers. Not of the program are the memtables and logs that a switch has
put away, all the writers that have arrived, the groups that were committed with what was synced,
and the statuses that were returned. -/
structure WriterQueue (c : Comparator) where
  db : Db c
  writers : List QueuedWriter := []
  nextWriterId : ℕ := 1
  slots : ℕ → Option (Result Unit) := fun _ => none
  group : Option GroupInFlight := none
  switched : List (MemTable c × LogFile) := []
  arrived : List QueuedWriter := []
  commits : List (List QueuedWriter × Bool) := []
  returns : List (ℕ × Result Unit) := []

namespace WriterQueue

variable {c : Comparator}

/-- The first critical section of `write_owned`. -/
def enqueue (q : WriterQueue c) (batch : WriteBatch) (sync : Bool) : WriterQueue c :=
  let writer : QueuedWriter :=
    { batch, sync, id := q.nextWriterId, slot := !q.writers.isEmpty }
  { q with
    writers := q.writers ++ [writer]
    nextWriterId := q.nextWriterId + 1
    arrived := q.arrived ++ [writer] }

/-- `finish_writer_group`: the status goes to the slots of the first `count` writers. -/
def finishWriterGroup (q : WriterQueue c) (count : ℕ) (status : Result Unit) : WriterQueue c :=
  { q with
    writers := q.writers.drop count
    slots := fun id =>
      if (q.writers.take count).any fun w => w.slot && w.id == id then some status
      else q.slots id }

/-- The writer at the front makes room and builds its group. -/
def lead (q : WriterQueue c) : WriterQueue c :=
  match q.group, q.writers with
  | none, first :: rest =>
    match q.db.makeRoom with
    | .refused e db =>
      let q := { q with db }.finishWriterGroup (1 + rest.length) (.error e)
      { q with returns := q.returns ++ [(first.id, .error e)] }
    | .wait => q
    | .ready db =>
      let g := buildBatchGroup first.toPendingWriter (rest.map QueuedWriter.toPendingWriter)
      { q with
        db
        group := some { updates := g.1, count := g.2.1, sync := g.2.2 }
        switched :=
          if q.db.memMemoryUsage ≤ q.db.writeBufferSize then q.switched
          else q.switched ++ [(q.db.mem, q.db.log)] }
  | _, _ => q

/-- The append to the log. -/
def append (q : WriterQueue c) : WriterQueue c :=
  match q.group with
  | some g =>
    if g.appended then q
    else
      let (status, log) := q.db.toWriteCore.appendToLog { updates := g.updates, sync := g.sync }
      { q with db.log := log, group := some { g with status, appended := true } }
  | none => q

/-- The sync of the log, when the group asks for it. -/
def sync (q : WriterQueue c) : WriterQueue c :=
  match q.group with
  | some g =>
    if g.appended ∧ g.status = .ok () ∧ g.sync ∧ ¬ g.synced then
      let (status, log) := q.db.log.syncUnder none
      { q with db.log := log, group := some { g with status, synced := true } }
    else q
  | none => q

/-- The insertion into the memtable. -/
def insert (q : WriterQueue c) : WriterQueue c :=
  match q.group with
  | some g =>
    if g.appended ∧ g.status = .ok () ∧ (g.sync → g.synced) ∧ ¬ g.inserted then
      let (status, ins) := q.db.toWriteCore.insertIntoMem g.updates
      { q with
        db.mem := ins.mem
        group := some { g with status, inserted := true, bytesAdded := ins.bytesAdded } }
    else q
  | none => q

/-- The last critical section: the leader publishes the status and returns it. -/
def publish (q : WriterQueue c) : WriterQueue c :=
  match q.group, q.writers with
  | some g, first :: _ =>
    if g.appended ∧ (g.status = .ok () → g.inserted) then
      let q' := q.finishWriterGroup g.count g.status
      { q' with
        db.memMemoryUsage := q.db.memMemoryUsage + g.bytesAdded
        db.lastSequence :=
          if g.status = .ok () then q.db.lastSequence + g.updates.count else q.db.lastSequence
        group := none
        commits := q.commits ++ [(q.writers.take g.count, g.synced)]
        returns := q.returns ++ [(first.id, g.status)] }
    else q
  | _, _ => q

/-- A follower looks into its slot. -/
def wake (q : WriterQueue c) (id : ℕ) : WriterQueue c :=
  match q.slots id with
  | some status =>
    if q.writers.head?.map QueuedWriter.id = some id ∨ id ∈ q.returns.map Prod.fst then q
    else { q with returns := q.returns ++ [(id, status)] }
  | none => q

/-- The steps of the writers. -/
inductive Action
  | enqueue (batch : WriteBatch) (sync : Bool)
  | lead
  | append
  | sync
  | insert
  | publish
  | wake (id : ℕ)
  | background (numLevel0 : ℕ)

/-- One step of a writer. -/
def step (q : WriterQueue c) : Action → WriterQueue c
  | .enqueue batch sync => q.enqueue batch sync
  | .lead => q.lead
  | .append => q.append
  | .sync => q.sync
  | .insert => q.insert
  | .publish => q.publish
  | .wake id => q.wake id
  | .background numLevel0 => { q with db := q.db.background numLevel0 }

/-! ### What holds of the queue -/

/-- The batches of writers. -/
def pending (writers : List QueuedWriter) : List PendingWriter :=
  writers.map QueuedWriter.toPendingWriter

/-- The writers whose groups were committed, in the order of the commits. -/
def committed (q : WriterQueue c) : List QueuedWriter := q.commits.flatMap Prod.fst

/-- The writers of the group in flight when it has come as far as `p` says. -/
def inFlight (q : WriterQueue c) (p : GroupInFlight → Bool) : List QueuedWriter :=
  match q.group with
  | some g => if p g then q.writers.take g.count else []
  | none => []

@[simp] theorem pending_append (writers more : List QueuedWriter) :
    pending (writers ++ more) = pending writers ++ pending more :=
  map_append

/-- The group in flight is a group of the queue, and it has not failed. -/
structure GroupInv (q : WriterQueue c) (g : GroupInFlight) : Prop where
  group : GroupOf (pending q.writers) g.updates g.count g.sync
  status : g.status = .ok ()
  inserted : g.inserted = true → g.appended = true ∧ (g.sync = true → g.synced = true)

/-- **The queue and its statuses.** -/
structure QueueInv (q : WriterQueue c) : Prop where
  arrived : q.committed ++ q.writers = q.arrived
  ids : q.arrived.map QueuedWriter.id = List.range' 1 q.arrived.length
  nextWriterId : q.nextWriterId = q.arrived.length + 1
  valid : ∀ w ∈ q.arrived, w.batch.Valid
  followers : ∀ w ∈ q.writers.tail, w.slot = true
  noError : q.db.bgError = none
  group : ∀ g, q.group = some g → q.GroupInv g
  synced : ∀ commit ∈ q.commits, ∀ w ∈ commit.1, w.sync = true → commit.2 = true
  nodup : (q.returns.map Prod.fst).Nodup
  returns : ∀ r ∈ q.returns, r.2 = .ok () ∧ r.1 ∈ q.committed.map QueuedWriter.id
  slots : ∀ id status, q.slots id = some status →
    status = .ok () ∧ id ∈ q.committed.map QueuedWriter.id
  served : ∀ w ∈ q.committed, w.id ∈ q.returns.map Prod.fst ∨ q.slots w.id = some (.ok ())

/-- The batches are well formed, and the sequence numbers do not come to the end of their width. -/
def Promised (q : WriterQueue c) : Action → Prop
  | .enqueue batch _ => batch.Valid ∧
      q.db.lastSequence + 1 + (recordsOf (pending q.writers)).length + batch.handled.length < 2 ^ 64
  | _ => True

instance (q : WriterQueue c) : ∀ action, Decidable (q.Promised action)
  | .enqueue batch _ => inferInstanceAs (Decidable (batch.Valid ∧ _))
  | .lead | .append | .sync | .insert | .publish | .wake _ | .background _ =>
    inferInstanceAs (Decidable True)

variable {q : WriterQueue c}

section

variable (h : q.QueueInv)
include h

theorem QueueInv.valid_writers : ∀ w ∈ pending q.writers, w.batch.Valid := by
  intro w hw
  obtain ⟨w', hw', rfl⟩ := mem_map.mp hw
  exact h.valid w' (h.arrived ▸ mem_append_right _ hw')

theorem QueueInv.nodup_ids :
    (q.committed.map QueuedWriter.id ++ q.writers.map QueuedWriter.id).Nodup := by
  rw [← map_append, h.arrived, h.ids]
  exact nodup_range'

private theorem QueueInv.nodup_returns {id : ℕ}
    (hnew : id ∉ q.returns.map Prod.fst) (status : Result Unit) :
    ((q.returns ++ [(id, status)]).map Prod.fst).Nodup := by
  rw [map_append, map_singleton, nodup_append]
  refine ⟨h.nodup, nodup_singleton _, fun a ha b hb hab => hnew ?_⟩
  obtain rfl : b = id := mem_singleton.mp hb
  exact hab ▸ ha

/-- The group in flight takes the first writers of the queue. -/
theorem QueueInv.handled_group {g : GroupInFlight} (hgrp : q.group = some g) :
    g.updates.handled = recordsOf (pending (q.writers.take g.count)) := by
  rw [(h.group g hgrp).group.handled, pending, pending, map_take]

theorem QueueInv.group_ne_nil {g : GroupInFlight} (hgrp : q.group = some g) :
    pending (q.writers.take g.count) ≠ [] := by
  have hpos := (h.group g hgrp).group.pos
  have hle := (h.group g hgrp).group.le
  rw [← length_pos_iff, pending, length_map, length_take]
  rw [pending, length_map] at hle
  omega

/-! ### What the steps do -/

/-- The state in which a group is written and the list of what was put away: as they were, or after
a switch. -/
def Switched (q : WriterQueue c) (db : Db c) (switched : List (MemTable c × LogFile)) : Prop :=
  (db = q.db ∧ switched = q.switched) ∨
    (db = q.db.rotate ∧ switched = q.switched ++ [(q.db.mem, q.db.log)])

omit h in
private theorem switched_of_ready {db : Db c} (hroom : q.db.makeRoom = .ready db) :
    q.Switched db (if q.db.memMemoryUsage ≤ q.db.writeBufferSize then q.switched
      else q.switched ++ [(q.db.mem, q.db.log)]) := by
  unfold Db.makeRoom at hroom
  split at hroom
  · cases hroom
  · split_ifs at hroom ⊢ with husage
    · cases hroom
      exact .inl ⟨rfl, rfl⟩
    · cases hroom
      exact .inr ⟨rfl, rfl⟩

/-- The leader builds its group, perhaps after a switch. -/
theorem lead_cases : q.lead = q ∨ ∃ db switched g, q.group = none ∧
    q.Switched db switched ∧ g.appended = false ∧ g.inserted = false ∧ q.GroupInv g ∧
    q.lead = { q with db, group := some g, switched } := by
  unfold lead
  split
  · rename_i first rest hgrp hwriters
    split
    · rename_i e db hroom
      rw [Db.makeRoom, h.noError] at hroom
      simp only at hroom
      split_ifs at hroom
    · exact .inl rfl
    · rename_i db hroom
      have hv := h.valid_writers
      rw [pending, hwriters, map_cons] at hv
      refine .inr ⟨db, _, _, hgrp, switched_of_ready hroom, rfl, rfl, ⟨?_, rfl, by simp⟩, rfl⟩
      rw [pending, hwriters]
      exact groupOf_buildBatchGroup hv
  · exact .inl rfl

theorem append_cases :
    (q.append = q ∧ ∀ g, q.group = some g → g.appended = true) ∨
    ∃ g, q.group = some g ∧ g.appended = false ∧
      q.append = { q with
        db.log := q.db.log.appended (q.db.record g.updates)
        group := some { g with appended := true } } := by
  unfold append
  rcases hgrp : q.group with _ | g
  · exact .inl ⟨rfl, by simp⟩
  · by_cases happended : g.appended = true
    · exact .inl ⟨by simp only [happended, if_true], by simpa using happended⟩
    · have happ : q.db.toWriteCore.appendToLog { updates := g.updates, sync := g.sync } =
          (.ok (), q.db.log.appended (q.db.record g.updates)) := q.db.log.addRecordUnder_none _ _
      refine .inr ⟨g, rfl, by simpa using happended, ?_⟩
      simp only [happended, Bool.false_eq_true, if_false, happ, ← (h.group g hgrp).status]

theorem sync_cases :
    (q.sync = q ∧ ∀ g, q.group = some g → g.appended = true → g.sync = true → g.synced = true) ∨
    ∃ g, q.group = some g ∧
      q.sync = { q with
        db.log := (q.db.log.syncUnder none).2
        group := some { g with synced := true } } := by
  unfold sync
  rcases hgrp : q.group with _ | g
  · exact .inl ⟨rfl, by simp⟩
  · have hstat := (h.group g hgrp).status
    by_cases hguard : g.appended = true ∧ g.status = .ok () ∧ g.sync = true ∧ ¬ g.synced = true
    · refine .inr ⟨g, rfl, (if_pos hguard).trans ?_⟩
      simp only [LogFile.syncUnder_none, ← hstat]
    · refine .inl ⟨if_neg hguard, fun g' hg' happended hsync => ?_⟩
      obtain rfl := Option.some.inj hg'
      simpa [happended, hstat, hsync] using hguard

theorem insert_cases :
    (q.insert = q ∧ ∀ g, q.group = some g → g.appended = true →
      (g.sync = true → g.synced = true) → g.inserted = true) ∨
    ∃ g, q.group = some g ∧ g.appended = true ∧ (g.sync = true → g.synced = true) ∧
      g.inserted = false ∧
      q.insert = { q with
        db.mem := (g.updates.handled.foldl MemTableInserter.handle
          { sequence := q.db.lastSequence + 1, mem := q.db.mem }).mem
        group := some { g with
          inserted := true
          bytesAdded := (g.updates.handled.foldl MemTableInserter.handle
            { sequence := q.db.lastSequence + 1, mem := q.db.mem }).bytesAdded } } := by
  unfold insert
  rcases hgrp : q.group with _ | g
  · exact .inl ⟨rfl, by simp⟩
  · have hinv := h.group g hgrp
    by_cases hguard : g.appended = true ∧ g.status = .ok () ∧ (g.sync = true → g.synced = true) ∧
        ¬ g.inserted = true
    · have hins : q.db.toWriteCore.insertIntoMem g.updates =
          (.ok (), g.updates.handled.foldl MemTableInserter.handle
            { sequence := q.db.lastSequence + 1, mem := q.db.mem }) := by
        rw [WriteCore.insertIntoMem, WriteBatch.iterate_eq_foldl, hinv.group.valid.wellFormed]
      refine .inr ⟨g, rfl, hguard.1, hguard.2.2.1, by simpa using hguard.2.2.2,
        (if_pos hguard).trans ?_⟩
      simp only [hins, ← hinv.status]
    · refine .inl ⟨if_neg hguard, fun g' hg' happended hsynced => ?_⟩
      obtain rfl := Option.some.inj hg'
      by_contra hi
      exact hguard ⟨happended, hinv.status, hsynced, hi⟩

theorem publish_cases :
    (q.publish = q ∧ ∀ g, q.group = some g → ¬ (g.appended = true ∧ g.inserted = true)) ∨
    ∃ g first rest, q.group = some g ∧ q.writers = first :: rest ∧ g.appended = true ∧
      g.inserted = true ∧
      q.publish = { q.finishWriterGroup g.count (.ok ()) with
        db.memMemoryUsage := q.db.memMemoryUsage + g.bytesAdded
        db.lastSequence := q.db.lastSequence + g.updates.count
        group := none
        commits := q.commits ++ [(q.writers.take g.count, g.synced)]
        returns := q.returns ++ [(first.id, .ok ())] } := by
  unfold publish
  rcases hgrp : q.group with _ | g
  · exact .inl ⟨rfl, by simp⟩
  · obtain ⟨first, rest, hwriters⟩ : ∃ first rest, q.writers = first :: rest :=
      exists_cons_of_ne_nil fun hnil => h.group_ne_nil hgrp (by simp [hnil, pending])
    have hstat := (h.group g hgrp).status
    by_cases hguard : g.appended = true ∧ (g.status = .ok () → g.inserted = true)
    · refine .inr ⟨g, first, rest, rfl, hwriters, hguard.1, hguard.2 hstat, ?_⟩
      simp only [hwriters]
      rw [if_pos hguard]
      simp only [hstat, if_true]
    · refine .inl ⟨?_, fun g' hg' hdone => ?_⟩
      · simp only [hwriters, if_neg hguard]
      · obtain rfl := Option.some.inj hg'
        exact hguard ⟨hdone.1, fun _ => hdone.2⟩

omit h in
theorem wake_cases (q : WriterQueue c) (id : ℕ) : q.wake id = q ∨ ∃ status,
    q.slots id = some status ∧ id ∉ q.returns.map Prod.fst ∧
    q.wake id = { q with returns := q.returns ++ [(id, status)] } := by
  unfold wake
  split
  · rename_i status hslot
    split_ifs with hguard
    · exact .inl rfl
    · exact .inr ⟨status, hslot, fun hmem => hguard (.inr hmem), rfl⟩
  · exact .inl rfl

/-! ### The queue along a run -/

private theorem QueueInv.enqueue {batch : WriteBatch} (hv : batch.Valid) (sync : Bool) :
    (q.enqueue batch sync).QueueInv :=
  { h with
    arrived := by
      change q.committed ++ (q.writers ++ [_]) = q.arrived ++ [_]
      rw [← append_assoc, h.arrived]
    ids := by
      change (q.arrived ++ [_]).map QueuedWriter.id = List.range' 1 (q.arrived ++ [_]).length
      rw [map_append, h.ids, length_append, length_singleton, range'_concat,
        map_singleton, h.nextWriterId, Nat.one_mul, Nat.add_comm 1]
    nextWriterId := by
      change q.nextWriterId + 1 = (q.arrived ++ [_]).length + 1
      rw [h.nextWriterId, length_append, length_singleton]
    valid := by
      change ∀ w ∈ q.arrived ++ [_], w.batch.Valid
      simpa [or_imp, forall_and] using ⟨h.valid, hv⟩
    followers := by
      have hrest := h.followers
      rw [WriterQueue.enqueue]
      rcases hwriters : q.writers with _ | ⟨first, rest⟩
      · simp
      · rw [hwriters, tail_cons] at hrest
        simpa [or_imp, forall_and] using hrest
    group := fun g hg => by
      obtain ⟨hgrp, hstat, hi⟩ := h.group g hg
      refine ⟨?_, hstat, hi⟩
      change GroupOf (pending (q.writers ++ [_])) _ _ _
      rw [pending_append]
      exact hgrp.append _ }

/-- The leader has come further with its group. -/
private theorem QueueInv.withGroup {db : Db c} {g : GroupInFlight} (hg : q.GroupInv g)
    (hnone : db.bgError = none) (switched : List (MemTable c × LogFile)) :
    QueueInv { q with db, group := some g, switched } :=
  { h with
    noError := hnone
    group := fun g' hg' => by
      obtain rfl := Option.some.inj hg'
      exact ⟨hg.group, hg.status, hg.inserted⟩ }

private theorem QueueInv.lead : q.lead.QueueInv := by
  obtain heq | ⟨db, switched, g, -, hswitched, -, -, hg, heq⟩ := lead_cases h <;> rw [heq]
  · exact h
  · refine h.withGroup hg ?_ switched
    obtain ⟨rfl, -⟩ | ⟨rfl, -⟩ := hswitched <;> exact h.noError

private theorem QueueInv.append : q.append.QueueInv := by
  obtain ⟨heq, -⟩ | ⟨g, hgrp, -, heq⟩ := append_cases h <;> rw [heq]
  · exact h
  · obtain ⟨hg, hstat, hi⟩ := h.group g hgrp
    refine h.withGroup ?_ ?_ _
    exacts [⟨hg, hstat, fun hins => ⟨rfl, (hi hins).2⟩⟩, h.noError]

private theorem QueueInv.sync : q.sync.QueueInv := by
  obtain ⟨heq, -⟩ | ⟨g, hgrp, heq⟩ := sync_cases h <;> rw [heq]
  · exact h
  · obtain ⟨hg, hstat, hi⟩ := h.group g hgrp
    refine h.withGroup ?_ ?_ _
    exacts [⟨hg, hstat, fun hins => ⟨(hi hins).1, fun _ => rfl⟩⟩, h.noError]

private theorem QueueInv.insert : q.insert.QueueInv := by
  obtain ⟨heq, -⟩ | ⟨g, hgrp, happended, hsynced, -, heq⟩ := insert_cases h <;> rw [heq]
  · exact h
  · obtain ⟨hg, hstat, -⟩ := h.group g hgrp
    refine h.withGroup ?_ ?_ _
    exacts [⟨hg, hstat, fun _ => ⟨happended, hsynced⟩⟩, h.noError]

/-- What the statuses say when the first writers are through and their leader has returned. -/
structure Served (q q' : WriterQueue c) (first : QueuedWriter)
    (through : List QueuedWriter) : Prop where
  committed_eq : q'.committed = q.committed ++ first :: through
  slots_eq : ∀ id, q'.slots id =
    if (first :: through).any fun w => w.slot && w.id == id then some (.ok ()) else q.slots id
  returns_eq : q'.returns = q.returns ++ [(first.id, .ok ())]

section Served

variable {q' : WriterQueue c} {first : QueuedWriter} {through : List QueuedWriter}
  (hs : Served q q' first through)

include hs

private theorem QueueInv.returns_served :
    ∀ r ∈ q'.returns, r.2 = .ok () ∧ r.1 ∈ q'.committed.map QueuedWriter.id := by
  intro r hr
  rw [hs.returns_eq, mem_append, mem_singleton] at hr
  rw [hs.committed_eq, map_append, mem_append]
  rcases hr with hr | rfl
  · exact ⟨(h.returns r hr).1, .inl (h.returns r hr).2⟩
  · exact ⟨rfl, .inr mem_cons_self⟩

private theorem QueueInv.slots_served :
    ∀ id status, q'.slots id = some status →
      status = .ok () ∧ id ∈ q'.committed.map QueuedWriter.id := by
  intro id status hslot
  rw [hs.slots_eq] at hslot
  rw [hs.committed_eq, map_append, mem_append]
  split_ifs at hslot with hany
  · obtain ⟨w, hw, hid⟩ := any_eq_true.mp hany
    simp only [Bool.and_eq_true, beq_iff_eq] at hid
    exact ⟨(Option.some.inj hslot).symm, .inr (mem_map.mpr ⟨w, hw, hid.2⟩)⟩
  · exact ⟨(h.slots id status hslot).1, .inl (h.slots id status hslot).2⟩

private theorem QueueInv.served_served (hthrough : ∀ w ∈ through, w.slot = true) :
    ∀ w ∈ q'.committed, w.id ∈ q'.returns.map Prod.fst ∨ q'.slots w.id = some (.ok ()) := by
  intro w hw
  rw [hs.committed_eq, mem_append, mem_cons] at hw
  rw [hs.slots_eq, hs.returns_eq, map_append, mem_append]
  rcases hw with hw | rfl | hw
  · rcases h.served w hw with hret | hslot
    · exact .inl (.inl hret)
    · refine .inr ?_
      rw [hslot, ite_self]
  · exact .inl (.inr (by simp))
  · exact .inr (if_pos (any_eq_true.mpr ⟨w, mem_cons_of_mem _ hw, by simp [hthrough w hw]⟩))

end Served

private theorem QueueInv.publish : q.publish.QueueInv := by
  obtain ⟨heq, -⟩ | ⟨g, first, rest, hgrp, hwriters, happended, hi, heq⟩ := publish_cases h
  · rwa [heq]
  · obtain ⟨hg, -, hins⟩ := h.group g hgrp
    have htake : q.writers.take g.count = first :: rest.take (g.count - 1) := by
      rw [hwriters, take_cons hg.pos]
    have hs : Served q q.publish first (rest.take (g.count - 1)) := by
      rw [heq]
      exact ⟨by simp [committed, htake], fun id => by rw [← htake]; rfl, rfl⟩
    have hfollowers : ∀ w ∈ rest, w.slot = true := fun w hw =>
      h.followers w (by rw [hwriters]; exact hw)
    have hnew : first.id ∉ q.returns.map Prod.fst := by
      intro hmem
      obtain ⟨r, hr, hid⟩ := mem_map.mp hmem
      have hids := h.nodup_ids
      rw [hwriters] at hids
      exact (nodup_append.mp hids).2.2 _ (hid ▸ (h.returns r hr).2) _ mem_cons_self rfl
    rw [heq] at hs ⊢
    exact
      { h with
        arrived := by
          rw [hs.committed_eq, ← htake, append_assoc]
          exact (congrArg _ (take_append_drop ..)).trans h.arrived
        followers := fun w hw => by
          have htail : (q.writers.drop g.count).tail <:+ q.writers.tail := by
            rw [tail_drop, ← drop_one, Nat.add_comm, ← drop_drop]
            exact drop_suffix _ _
          exact h.followers w (htail.subset hw)
        group := by simp
        synced := fun commit hcom w hw hsync => by
          rcases mem_append.mp hcom with hcom | hcom
          · exact h.synced commit hcom w hw hsync
          · obtain rfl := mem_singleton.mp hcom
            have hsync' := hg.sync w.toPendingWriter
              (by rw [pending, ← map_take]; exact mem_map_of_mem hw) hsync
            exact (hins hi).2 hsync'
        nodup := h.nodup_returns hnew _
        returns := h.returns_served hs
        slots := h.slots_served hs
        served := h.served_served hs fun w hw => hfollowers w (mem_of_mem_take hw) }

private theorem QueueInv.wake (id : ℕ) : (q.wake id).QueueInv := by
  obtain heq | ⟨status, hslot, hnew, heq⟩ := wake_cases q id
  · rwa [heq]
  · rw [heq]
    obtain ⟨rfl, hcommitted⟩ := h.slots id status hslot
    refine { h with group := fun g hg => ?_, nodup := ?_, returns := fun r hr => ?_,
                    served := fun w hw => ?_ }
    · exact ⟨(h.group g hg).group, (h.group g hg).status, (h.group g hg).inserted⟩
    · exact h.nodup_returns hnew _
    · rcases mem_append.mp hr with hr | hr
      · exact h.returns r hr
      · obtain rfl := mem_singleton.mp hr
        exact ⟨rfl, hcommitted⟩
    · rw [map_append, mem_append]
      exact (h.served w hw).imp_left .inl

omit h in
theorem background_core (db : Db c) (numLevel0 : ℕ) :
    (db.background numLevel0).toWriteCore = db.toWriteCore := by
  unfold Db.background
  split_ifs
  · rfl
  · split
    · rfl
    · split_ifs <;> rfl

/-- **Every step keeps the queue.** -/
theorem QueueInv.step {action : Action} (hprom : q.Promised action) :
    (q.step action).QueueInv := by
  cases action with
  | enqueue batch sync => exact h.enqueue hprom.1 sync
  | lead => exact h.lead
  | append => exact h.append
  | sync => exact h.sync
  | insert => exact h.insert
  | publish => exact h.publish
  | wake id => exact h.wake id
  | background numLevel0 =>
    refine { h with noError := ?_, group := fun g hg => ?_ }
    · change (q.db.background numLevel0).toWriteCore.bgError = none
      rw [background_core]
      exact h.noError
    · exact ⟨(h.group g hg).group, (h.group g hg).status, (h.group g hg).inserted⟩

/-! ### Every writer is served -/

private theorem lead_starts (hne : q.writers ≠ []) :
    ∃ g, (q.step (.background 0)).lead.group = some g := by
  obtain ⟨first, rest, hwriters⟩ := exists_cons_of_ne_nil hne
  have hwriters' : (q.step (.background 0)).writers = first :: rest := hwriters
  rcases hgrp : q.group with _ | g
  · obtain ⟨⟨db, hroom⟩, -⟩ := Db.makeRoom_background h.noError
    have hgrp' : (q.step (.background 0)).group = none := hgrp
    have hroom' : (q.step (.background 0)).db.makeRoom = .ready db := hroom
    simp only [lead, hgrp', hwriters', hroom']
    exact ⟨_, rfl⟩
  · have hgrp' : (q.step (.background 0)).group = some g := hgrp
    exact ⟨g, by simp only [lead, hgrp']⟩

private theorem append_appends {g : GroupInFlight} (hgrp : q.group = some g) :
    ∃ g', q.append.group = some g' ∧ g'.appended = true := by
  obtain ⟨heq, hdone⟩ | ⟨g', -, -, heq⟩ := append_cases h
  · exact ⟨g, (congrArg WriterQueue.group heq).trans hgrp, hdone g hgrp⟩
  · exact ⟨_, congrArg WriterQueue.group heq, rfl⟩

private theorem sync_syncs {g : GroupInFlight} (hgrp : q.group = some g)
    (happended : g.appended = true) :
    ∃ g', q.sync.group = some g' ∧ g'.appended = true ∧ (g'.sync = true → g'.synced = true) := by
  obtain ⟨heq, hdone⟩ | ⟨g', hgrp', heq⟩ := sync_cases h
  · exact ⟨g, (congrArg WriterQueue.group heq).trans hgrp, happended, hdone g hgrp happended⟩
  · obtain rfl := Option.some.inj (hgrp.symm.trans hgrp')
    exact ⟨_, congrArg WriterQueue.group heq, happended, fun _ => rfl⟩

private theorem insert_inserts {g : GroupInFlight} (hgrp : q.group = some g)
    (happended : g.appended = true) (hsynced : g.sync = true → g.synced = true) :
    ∃ g', q.insert.group = some g' ∧ g'.appended = true ∧ g'.inserted = true := by
  obtain ⟨heq, hdone⟩ | ⟨g', hgrp', -, -, -, heq⟩ := insert_cases h
  · exact ⟨g, (congrArg WriterQueue.group heq).trans hgrp, happended,
      hdone g hgrp happended hsynced⟩
  · obtain rfl := Option.some.inj (hgrp.symm.trans hgrp')
    exact ⟨_, congrArg WriterQueue.group heq, happended, rfl⟩

/-- No step but an enqueueing changes the writers that have arrived, and only a commit takes some of
them off the queue. -/
theorem kept_step {action : Action} (ho : ∀ batch sync, action ≠ .enqueue batch sync) :
    (q.step action).arrived = q.arrived ∧
      (action ≠ .publish → (q.step action).writers = q.writers) := by
  cases action with
  | enqueue batch sync => exact absurd rfl (ho batch sync)
  | lead =>
    obtain heq | ⟨_, _, _, -, -, -, -, -, heq⟩ := lead_cases h <;> rw [step, heq] <;>
      exact ⟨rfl, fun _ => rfl⟩
  | append =>
    obtain ⟨heq, -⟩ | ⟨_, -, -, heq⟩ := append_cases h <;> rw [step, heq] <;>
      exact ⟨rfl, fun _ => rfl⟩
  | sync =>
    obtain ⟨heq, -⟩ | ⟨_, -, heq⟩ := sync_cases h <;> rw [step, heq] <;> exact ⟨rfl, fun _ => rfl⟩
  | insert =>
    obtain ⟨heq, -⟩ | ⟨_, -, -, -, -, heq⟩ := insert_cases h <;> rw [step, heq] <;>
      exact ⟨rfl, fun _ => rfl⟩
  | publish =>
    refine ⟨?_, fun hne => absurd rfl hne⟩
    obtain ⟨heq, -⟩ | ⟨_, _, _, -, -, -, -, heq⟩ := publish_cases h <;> rw [step, heq]
    rfl
  | wake id =>
    obtain heq | ⟨_, -, -, heq⟩ := wake_cases q id <;> rw [step, heq] <;> exact ⟨rfl, fun _ => rfl⟩
  | background numLevel0 => exact ⟨rfl, fun _ => rfl⟩

/-- The actions that take the first group off the queue. -/
def serve : List Action := [.background 0, .lead, .append, .sync, .insert, .publish]

private theorem run_invariant {actions : List Action}
    (ho : ∀ action ∈ actions, ∀ batch sync, action ≠ .enqueue batch sync) :
    (Runs.run step q actions).QueueInv ∧ (Runs.run step q actions).arrived = q.arrived := by
  induction actions generalizing q with
  | nil => exact ⟨h, rfl⟩
  | cons action actions ih =>
    rw [forall_mem_cons] at ho
    have hprom : q.Promised action := by
      cases action with
      | enqueue batch sync => exact absurd rfl (ho.1 batch sync)
      | lead | append | sync | insert | publish | wake | background => trivial
    obtain ⟨hinv, harr⟩ := ih (h.step hprom) ho.2
    exact ⟨hinv, harr.trans (kept_step h ho.1).1⟩

omit h in
private theorem serve_ne_enqueue :
    ∀ action ∈ serve, ∀ batch sync, action ≠ .enqueue batch sync := by
  simp [serve]

private theorem writers_of_serve :
    (q.step (.background 0)).lead.append.sync.insert.writers = q.writers := by
  have h₁ := h.step (show q.Promised (.background 0) from trivial)
  have hlead := (@kept_step c _ h₁ .lead (by simp)).2 (by simp)
  have happend := (@kept_step c _ h₁.lead .append (by simp)).2 (by simp)
  have hsync := (@kept_step c _ h₁.lead.append .sync (by simp)).2 (by simp)
  have hins := (@kept_step c _ h₁.lead.append.sync .insert (by simp)).2 (by simp)
  exact hins.trans (hsync.trans (happend.trans hlead))

/-- A group is committed. -/
private theorem length_writers_serve (hne : q.writers ≠ []) :
    (Runs.run step q serve).writers.length < q.writers.length := by
  have h₁ := h.step (show q.Promised (.background 0) from trivial)
  have hwriters := writers_of_serve h
  have h₅ := h₁.lead.append.sync.insert
  obtain ⟨g, hg⟩ := lead_starts h hne
  obtain ⟨g₃, hg₃, happended₃⟩ := append_appends h₁.lead hg
  obtain ⟨g₄, hg₄, happended₄, hsynced⟩ := sync_syncs h₁.lead.append hg₃ happended₃
  obtain ⟨g₅, hg₅, happended₅, hi⟩ := insert_inserts h₁.lead.append.sync hg₄ happended₄ hsynced
  change (q.step (.background 0)).lead.append.sync.insert.publish.writers.length < _
  obtain ⟨-, hnot⟩ | ⟨g, _, _, hgrp, -, -, -, heq⟩ := publish_cases h₅
  · exact absurd ⟨happended₅, hi⟩ (hnot g₅ hg₅)
  · have hpos := (h₅.group g hgrp).group.pos
    rw [heq]
    change (List.drop g.count _).length < _
    rw [hwriters, length_drop]
    have := length_pos_iff.mpr hne
    omega

/-- All groups are committed. -/
private theorem exists_drained :
    ∃ actions : List Action, (∀ action ∈ actions, ∀ batch sync, action ≠ .enqueue batch sync) ∧
      (Runs.run step q actions).writers = [] := by
  generalize hn : q.writers.length = n
  induction n using Nat.strong_induction_on generalizing q with
  | _ n ih =>
    by_cases hne : q.writers = []
    · exact ⟨[], by simp, hne⟩
    · obtain ⟨h', -⟩ := run_invariant h serve_ne_enqueue
      obtain ⟨actions, hactions, hrun⟩ := ih _ (hn ▸ length_writers_serve h hne) h' rfl
      refine ⟨serve ++ actions, fun action hact => ?_, by rw [Runs.run_append, hrun]⟩
      exact (mem_append.mp hact).elim (serve_ne_enqueue action) (hactions action)

omit h in
private theorem mem_returns_wake {id : ℕ} (hid : id ∈ q.returns.map Prod.fst) (id' : ℕ) :
    id ∈ (q.wake id').returns.map Prod.fst := by
  obtain heq | ⟨status, -, -, heq⟩ := wake_cases q id'
  · rwa [heq]
  · rw [heq, map_append]
    exact mem_append_left _ hid

/-- With an empty queue, every follower finds its status. -/
private theorem returned_wake (hwriters : q.writers = []) {w : QueuedWriter}
    (hw : w ∈ q.committed) : w.id ∈ (q.wake w.id).returns.map Prod.fst := by
  by_cases hreturned : w.id ∈ q.returns.map Prod.fst
  · exact mem_returns_wake hreturned _
  · have hslot := (h.served w hw).resolve_left hreturned
    simp [wake, hslot, hwriters, hreturned]

private theorem returned_wakes (hwriters : q.writers = [])
    (ws : List QueuedWriter) (hws : ∀ w ∈ ws, w ∈ q.committed) :
    ∀ id, (id ∈ q.returns.map Prod.fst ∨ ∃ w ∈ ws, w.id = id) →
      id ∈ (Runs.run step q (ws.map fun w => .wake w.id)).returns.map Prod.fst := by
  induction ws generalizing q with
  | nil => simp
  | cons w ws ih =>
    rw [forall_mem_cons] at hws
    have hsame : (q.wake w.id).writers = q.writers ∧ (q.wake w.id).committed = q.committed := by
      obtain heq | ⟨status, -, -, heq⟩ := wake_cases q w.id <;> rw [heq] <;> exact ⟨rfl, rfl⟩
    have hnext := ih (h.wake w.id) (hsame.1.trans hwriters) (by rw [hsame.2]; exact hws.2)
    rintro id (hid | ⟨w', hw', rfl⟩)
    · exact hnext id (.inl (mem_returns_wake hid _))
    · rcases mem_cons.mp hw' with rfl | hw'
      · exact hnext _ (.inl (returned_wake h hwriters hws.1))
      · exact hnext _ (.inr ⟨w', hw', rfl⟩)

/-- **No writer is left waiting.** -/
theorem exists_served :
    ∃ actions : List Action, (∀ action ∈ actions, ∀ batch sync, action ≠ .enqueue batch sync) ∧
      ∀ w ∈ q.arrived, (w.id, .ok ()) ∈ (Runs.run step q actions).returns := by
  obtain ⟨actions, hactions, hdrained⟩ := exists_drained h
  obtain ⟨h', harr⟩ := run_invariant h hactions
  have hwakes : ∀ action ∈ (Runs.run step q actions).committed.map fun w => Action.wake w.id,
      ∀ batch sync, action ≠ .enqueue batch sync := by simp
  refine ⟨actions ++ (Runs.run step q actions).committed.map fun w => .wake w.id, ?_, ?_⟩
  · intro action hact
    exact (mem_append.mp hact).elim (hactions action) (hwakes action)
  · intro w hw
    rw [← harr, ← h'.arrived, hdrained, append_nil] at hw
    have hreturned := returned_wakes h' hdrained _ (fun _ hw => hw) w.id (.inr ⟨w, hw, rfl⟩)
    rw [Runs.run_append]
    obtain ⟨⟨id, status⟩, hr, rfl⟩ := mem_map.mp hreturned
    obtain ⟨hinv, -⟩ := run_invariant h' hwakes
    obtain ⟨rfl, -⟩ := hinv.returns _ hr
    exact hr

end

end WriterQueue
end PulsearcDb
