import PulsearcDb.Repair

/-!
# Replayed batches

`recover_log_file` and `convert_log_to_table` insert the operations of a batch while they parse it.
A batch whose body is malformed behind its first operations leaves these in the memtable, and the
largest sequence number is only updated for batches that were accepted. Here it is said what should
hold of a replay (`ReplaysWhole`, `ConvertsWhole`) and for which logs it does (`Intact`).
-/

namespace PulsearcDb

open Log List

/-- The operations of a batch, if its body is a sequence of records. -/
def WriteBatch.operations (b : WriteBatch) : Option (List WriteBatchRecord) :=
  match iterateLoop collect [] 0 b.body with
  | (.ok _, records) => some records
  | (.error _, _) => none

/-- The sequence number of the last operation, as the header of a batch has it. -/
def WriteBatch.lastSequence (b : WriteBatch) : ℕ := (b.sequence + b.count + (2 ^ 64 - 1)) % 2 ^ 64

/-- A record of a log as a batch. -/
def batchOf (record : Bytes) : Option WriteBatch := (WriteBatch.setContents record).toOption

/-- Whether `recover_log_file` goes on behind a record. -/
def accepts (record : Bytes) : Bool := (batchOf record).any fun batch => batch.WellFormed

/-- The records that `recover_log_file` reads: it stops behind the first one that it refuses. -/
def recordsRead : List Bytes → List Bytes
  | [] => []
  | record :: records => record :: if accepts record then recordsRead records else []

/-- **All operations of a batch**, with the sequence numbers `seq`, `seq + 1`, … -/
structure WholeBatch (record : Bytes) (entries : List Entry) : Prop where
  operations : ∃ batch ops, batchOf record = some batch ∧ batch.operations = some ops ∧
    entries = WriteBatchRecord.entriesFrom batch.sequence ops ∧
    ∀ i e, entries[i]? = some e → keySequence e.ik = batch.sequence + i

/-- **All or none**: of every record, all operations were inserted or none. -/
def AllOrNone (records : List Bytes) (inserted : List Entry) : Prop :=
  ∃ parts : List (List Entry), inserted = parts.flatten ∧
    List.Forall₂ (fun record part => part = [] ∨ WholeBatch record part) records parts

/-- What should hold of `recover_log_file` without `paranoid`. -/
def ReplaysWhole {c : Comparator} (mem : MemTable c) (log : Bytes) : Prop :=
  let st := (({ mem } : LogRecovery c).recoverLogFile false log).2
  ∃ inserted, st.mem.entries.Perm (mem.entries ++ inserted) ∧
    AllOrNone (recordsRead (Log.records log)) inserted ∧
    ∀ e ∈ inserted, keySequence e.ik ≤ st.maxSequence

/-- What should hold of `convert_log_to_table`. -/
def ConvertsWhole (c : Comparator) (log : Bytes) : Prop :=
  ∃ inserted, (Repairer.logEntries c log).Perm inserted ∧ AllOrNone (Log.records log) inserted

/-- **The logs that are replayed whole.** A batch of which an operation can be read can be read to
its end, and its sequence numbers have 56 bits. Of the batches up to the first one that is refused,
none reaches beyond the last sequence number of all that are accepted. -/
structure Intact (log : Bytes) : Prop where
  whole : ∀ record ∈ Log.records log, ∀ batch, batchOf record = some batch → batch.handled ≠ [] →
    batch.operations ≠ none ∧ batch.sequence + batch.handled.length ≤ 2 ^ 56
  bounded : ∀ record ∈ recordsRead (Log.records log), ∀ batch, batchOf record = some batch →
    1 < batch.sequence + batch.handled.length → batch.handled ≠ [] →
    ∃ record' ∈ recordsRead (Log.records log), ∃ batch', batchOf record' = some batch' ∧
      batch'.WellFormed ∧ batch.sequence + batch.handled.length ≤ batch'.lastSequence + 1

/-! ### What a record leaves in the memtable -/

/-- The entries that a record leaves in the memtable, whether it is accepted or not. -/
def recordEntries (record : Bytes) : List Entry :=
  (batchOf record).elim [] fun batch => WriteBatchRecord.entriesFrom batch.sequence batch.handled

variable {c : Comparator}

private theorem setContents_eq (record : Bytes) :
    (∃ e, WriteBatch.setContents record = .error e ∧ batchOf record = none ∧ record.length < 12) ∨
      ∃ batch, WriteBatch.setContents record = .ok batch ∧ batchOf record = some batch ∧
        ¬ record.length < 12 := by
  rw [batchOf, WriteBatch.setContents]
  split_ifs with hlen
  · exact .inl ⟨_, rfl, rfl, hlen⟩
  · exact .inr ⟨_, rfl, rfl, hlen⟩

/-- What the body of `recover_log_file` does with a record. -/
theorem replayRecord_spec (st : LogRecovery c) (record : Bytes) :
    (st.replayRecord record).2.mem.entries.Perm (st.mem.entries ++ recordEntries record) ∧
      ((∃ batch, batchOf record = some batch ∧ batch.WellFormed ∧ accepts record = true ∧
          (st.replayRecord record).1 = .ok () ∧
          (st.replayRecord record).2.maxSequence = max st.maxSequence batch.lastSequence) ∨
        (¬ (∃ batch, batchOf record = some batch ∧ batch.WellFormed) ∧ accepts record = false ∧
          (∃ e, (st.replayRecord record).1 = .error e) ∧
          (st.replayRecord record).2.maxSequence = st.maxSequence)) := by
  rw [recordEntries, accepts]
  rcases setContents_eq record with ⟨e, hcont, hb, -⟩ | ⟨batch, hcont, hb, -⟩
  · simp [LogRecovery.replayRecord, hcont, hb]
  · have hperm := MemTableInserter.perm_foldl_handle
      { sequence := batch.sequence, mem := st.mem } batch.handled
    rw [hb]
    rcases hstat : (batch.iterate WriteBatch.collect []).1 with e | u
    · have hrefused : ¬ batch.WellFormed := by
        rw [WriteBatch.WellFormed, hstat]
        exact fun h => by cases h
      have hout : st.replayRecord record = (.error e, { st with
          mem := (batch.handled.foldl MemTableInserter.handle
            ⟨batch.sequence, st.mem, 0⟩).mem }) := by
        rw [LogRecovery.replayRecord, hcont]
        dsimp only
        rw [batch.iterate_eq_foldl, hstat]
      rw [hout]
      refine ⟨hperm, .inr ⟨?_, by simp [hrefused], ⟨e, rfl⟩, rfl⟩⟩
      rintro ⟨batch', hb', hwf⟩
      exact hrefused (Option.some.inj hb' ▸ hwf)
    · have hout : st.replayRecord record = (.ok (),
          { mem := (batch.handled.foldl MemTableInserter.handle ⟨batch.sequence, st.mem, 0⟩).mem
            maxSequence := max st.maxSequence batch.lastSequence
            bytesReplayed := st.bytesReplayed + (batch.handled.foldl MemTableInserter.handle
              ⟨batch.sequence, st.mem, 0⟩).bytesAdded }) := by
        rw [LogRecovery.replayRecord, hcont]
        dsimp only
        rw [batch.iterate_eq_foldl, hstat]
        rfl
      have hwf : batch.WellFormed := hstat
      rw [hout]
      exact ⟨hperm, .inl ⟨batch, rfl, hwf, by simp [hwf], rfl, rfl⟩⟩

/-- What `recover_log_file` does with the records of a log. -/
theorem applyRecords_replayRecord (st : LogRecovery c) (records : List Bytes) :
    let st' := (applyRecords LogRecovery.replayRecord st records).2
    st'.mem.entries.Perm (st.mem.entries ++ (recordsRead records).flatMap recordEntries) ∧
      ∀ n, n ≤ st'.maxSequence ↔ n ≤ st.maxSequence ∨ ∃ record ∈ recordsRead records,
        ∃ batch, batchOf record = some batch ∧ batch.WellFormed ∧ n ≤ batch.lastSequence := by
  induction records generalizing st with
  | nil => simp [applyRecords, recordsRead]
  | cons record records ih =>
    obtain ⟨hperm, hcases⟩ := replayRecord_spec st record
    rw [applyRecords, recordsRead, flatMap_cons]
    rcases hout : st.replayRecord record with ⟨status, st'⟩
    rw [hout] at hperm hcases
    rcases hcases with ⟨batch, hb, hwf, haccepts, hstat, hmax⟩ |
      ⟨hrefused, haccepts, ⟨e, hstat⟩, hmax⟩
    · obtain rfl : status = .ok () := hstat
      obtain ⟨hrest, hle⟩ := ih st'
      rw [Outcome.andThen_ok, haccepts, if_pos rfl]
      refine ⟨hrest.trans ?_, fun n => (hle n).trans ?_⟩
      · rw [← append_assoc]
        exact hperm.append_right _
      · have hmax' : st'.maxSequence = max st.maxSequence batch.lastSequence := hmax
        rw [hmax', le_max_iff, exists_mem_cons_iff, or_assoc]
        simp [hb, hwf]
    · obtain rfl : status = .error e := hstat
      rw [Outcome.andThen_error, haccepts]
      have hmax' : st'.maxSequence = st.maxSequence := hmax
      refine ⟨by simpa using hperm, fun n => ?_⟩
      simp only [hmax', Bool.false_eq_true, if_false, mem_singleton, exists_eq_left]
      refine ⟨.inl, fun h => h.resolve_right ?_⟩
      rintro ⟨batch, hb, hwf, -⟩
      exact hrefused ⟨batch, hb, hwf⟩

/-- What `convert_log_to_table` does with the records of a log. -/
theorem perm_applyRecords_repair (mem : MemTable c) (records : List Bytes) :
    ∃ mem', applyRecords Repairer.replayRecord mem records = (.ok (), mem') ∧
      mem'.entries.Perm (mem.entries ++ records.flatMap recordEntries) := by
  induction records generalizing mem with
  | nil => exact ⟨mem, rfl, by simp⟩
  | cons record records ih =>
    obtain ⟨mem', hrec, hperm⟩ : ∃ mem', Repairer.replayRecord mem record = (.ok (), mem') ∧
        mem'.entries.Perm (mem.entries ++ recordEntries record) := by
      rw [recordEntries]
      rcases setContents_eq record with ⟨e, -, hb, hshort⟩ | ⟨batch, hcont, hb, hlong⟩
      · exact ⟨mem, by rw [Repairer.replayRecord, if_pos hshort], by simp [hb]⟩
      · refine ⟨_, by rw [Repairer.replayRecord, if_neg hlong, hcont], ?_⟩
        rw [batch.iterate_eq_foldl, hb]
        exact MemTableInserter.perm_foldl_handle { sequence := batch.sequence, mem } batch.handled
    obtain ⟨mem'', hrest, hperm'⟩ := ih mem'
    refine ⟨mem'', by rw [applyRecords, hrec, Outcome.andThen_ok, hrest], hperm'.trans ?_⟩
    rw [flatMap_cons, ← append_assoc]
    exact hperm.append_right _

/-! ### Whole batches -/

/-- The operations of a batch are what `iterate` has handled. -/
theorem WriteBatch.eq_handled_of_operations {b : WriteBatch} {ops : List WriteBatchRecord}
    (h : b.operations = some ops) : ops = b.handled := by
  rw [operations] at h
  rw [handled, iterate]
  rcases hloop : iterateLoop collect [] 0 b.body with ⟨e | n, records⟩
  · rw [hloop] at h
    cases h
  · rw [hloop] at h
    obtain rfl := Option.some.inj h
    dsimp only
    split_ifs <;> rfl

/-- The entries of a batch have its sequence numbers exactly if these have 56 bits. -/
theorem sequences_iff {sequence : ℕ} {ops : List WriteBatchRecord} (hne : ops ≠ []) :
    (∀ i e, (WriteBatchRecord.entriesFrom sequence ops)[i]? = some e →
      keySequence e.ik = sequence + i) ↔ sequence + ops.length ≤ 2 ^ 56 := by
  simp only [WriteBatchRecord.getElem?_entriesFrom]
  have hpos := length_pos_iff.mpr hne
  constructor
  · intro h
    have hlast : ops[ops.length - 1]? = some (ops.getLast hne) := by
      rw [getLast_eq_getElem, getElem?_eq_getElem (by omega)]
    have hseq := h (ops.length - 1) _ (by rw [hlast]; rfl)
    have hlt := keySequence_lt ((ops.getLast hne).toEntry (sequence + (ops.length - 1))).ik
    omega
  · intro h i e he
    obtain ⟨op, hop, rfl⟩ := Option.map_eq_some_iff.mp he
    have hi := (List.getElem?_eq_some_iff.mp hop).1
    exact WriteBatchRecord.keySequence_toEntry (by rw [maxSequenceNumber]; omega) op

variable {record : Bytes} {records : List Bytes}

/-- A record leaves a whole batch exactly if its body can be read and its numbers have 56 bits. -/
theorem wholeBatch_recordEntries_iff {batch : WriteBatch} (hb : batchOf record = some batch)
    (hne : batch.handled ≠ []) :
    WholeBatch record (recordEntries record) ↔
      batch.operations ≠ none ∧ batch.sequence + batch.handled.length ≤ 2 ^ 56 := by
  have hents : recordEntries record =
      WriteBatchRecord.entriesFrom batch.sequence batch.handled := by
    rw [recordEntries, hb]
    rfl
  rw [hents, ← sequences_iff hne]
  constructor
  · rintro ⟨batch', ops, hb', hops, -, hseq⟩
    obtain rfl := Option.some.inj (hb'.symm.trans hb)
    exact ⟨by rw [hops]; exact Option.some_ne_none ops, hseq⟩
  · rintro ⟨hops, hseq⟩
    obtain ⟨ops, hops⟩ := Option.ne_none_iff_exists'.mp hops
    exact ⟨batch, ops, hb, hops, by rw [WriteBatch.eq_handled_of_operations hops], hseq⟩

/-- A whole batch is all that its record leaves. -/
theorem WholeBatch.eq_recordEntries {entries : List Entry} (h : WholeBatch record entries) :
    entries = recordEntries record := by
  obtain ⟨batch, ops, hb, hops, rfl, -⟩ := h
  rw [recordEntries, hb, WriteBatch.eq_handled_of_operations hops]
  rfl

private theorem length_parts_le {parts : List (List Entry)}
    (hp : List.Forall₂ (fun record part => part = [] ∨ WholeBatch record part) records parts) :
    parts.flatten.length ≤ (records.flatMap recordEntries).length := by
  induction hp with
  | nil => exact le_rfl
  | @cons record part records parts hpart hrest ih =>
    rw [flatten_cons, flatMap_cons, length_append, length_append]
    refine Nat.add_le_add ?_ ih
    rcases hpart with rfl | hpart
    · exact Nat.zero_le _
    · rw [hpart.eq_recordEntries]

/-- Parts that are together as long as what the records leave are all that they leave. -/
private theorem whole_of_parts {parts : List (List Entry)}
    (hp : List.Forall₂ (fun record part => part = [] ∨ WholeBatch record part) records parts)
    (hlen : (records.flatMap recordEntries).length ≤ parts.flatten.length) :
    ∀ record ∈ records, recordEntries record = [] ∨ WholeBatch record (recordEntries record) := by
  induction hp with
  | nil => exact fun record hmem => absurd hmem not_mem_nil
  | @cons record part records parts hpart hrest ih =>
    have hle := length_parts_le hrest
    rw [flatten_cons, flatMap_cons, length_append, length_append] at hlen
    intro record' hmem
    rcases hpart with rfl | hpart
    · rw [length_nil] at hlen
      rcases mem_cons.mp hmem with rfl | hmem
      · exact .inl (length_eq_zero_iff.mp (by omega))
      · exact ih (by omega) record' hmem
    · rw [hpart.eq_recordEntries] at hlen hpart
      rcases mem_cons.mp hmem with rfl | hmem
      · exact .inr hpart
      · exact ih (by omega) record' hmem

/-- Where all that the records leave was inserted, all or none of each means all of each. -/
theorem AllOrNone.whole {inserted : List Entry} (h : AllOrNone records inserted)
    (hperm : inserted.Perm (records.flatMap recordEntries)) :
    ∀ record ∈ records, recordEntries record = [] ∨ WholeBatch record (recordEntries record) := by
  obtain ⟨parts, rfl, hp⟩ := h
  exact whole_of_parts hp hperm.length_eq.ge

theorem allOrNone_flatMap
    (h : ∀ record ∈ records, recordEntries record = [] ∨ WholeBatch record (recordEntries record)) :
    AllOrNone records (records.flatMap recordEntries) := by
  refine ⟨records.map recordEntries, flatMap_def, ?_⟩
  exact forall₂_map_right_iff.mpr (forall₂_same.mpr h)

/-! ### The logs that are replayed whole -/

theorem recordEntries_eq_nil_iff : recordEntries record = [] ↔
    ∀ batch, batchOf record = some batch → batch.handled = [] := by
  rw [recordEntries]
  rcases batchOf record with _ | batch
  · simp
  · cases hops : batch.handled with
    | nil => simp [hops, WriteBatchRecord.entriesFrom]
    | cons op ops => simp [hops, WriteBatchRecord.entriesFrom]

theorem whole_iff :
    recordEntries record = [] ∨ WholeBatch record (recordEntries record) ↔
      ∀ batch, batchOf record = some batch → batch.handled ≠ [] →
        batch.operations ≠ none ∧ batch.sequence + batch.handled.length ≤ 2 ^ 56 := by
  constructor
  · rintro h batch hb hne
    rcases h with hnil | hw
    · exact absurd (recordEntries_eq_nil_iff.mp hnil batch hb) hne
    · exact (wholeBatch_recordEntries_iff hb hne).mp hw
  · intro h
    by_cases hnil : recordEntries record = []
    · exact .inl hnil
    · rw [recordEntries_eq_nil_iff] at hnil
      push Not at hnil
      obtain ⟨batch, hb, hne⟩ := hnil
      exact .inr ((wholeBatch_recordEntries_iff hb hne).mpr (h batch hb hne))

/-- The last entry of a batch has its largest sequence number. -/
theorem keySequence_le_iff {batch : WriteBatch} (hb : batchOf record = some batch)
    (hne : batch.handled ≠ []) (hbound : batch.sequence + batch.handled.length ≤ 2 ^ 56) (n : ℕ) :
    (∀ e ∈ recordEntries record, keySequence e.ik ≤ n) ↔
      batch.sequence + batch.handled.length ≤ n + 1 := by
  have hseq := (sequences_iff hne).mpr hbound
  have hents : recordEntries record =
      WriteBatchRecord.entriesFrom batch.sequence batch.handled := by
    rw [recordEntries, hb]
    rfl
  have hlen := WriteBatchRecord.length_entriesFrom batch.sequence batch.handled
  have hpos := length_pos_iff.mpr hne
  rw [hents]
  constructor
  · intro h
    have hlast := getElem?_eq_getElem (l := WriteBatchRecord.entriesFrom batch.sequence
      batch.handled) (i := batch.handled.length - 1) (by omega)
    have hle := h _ (mem_of_getElem? hlast)
    rw [hseq _ _ hlast] at hle
    omega
  · intro h e he
    obtain ⟨i, hi, rfl⟩ := mem_iff_getElem.mp he
    rw [hseq i _ (getElem?_eq_getElem hi)]
    omega

theorem mem_of_mem_recordsRead (h : record ∈ recordsRead records) : record ∈ records := by
  induction records with
  | nil => exact h
  | cons first records ih =>
    rw [recordsRead] at h
    rcases mem_cons.mp h with rfl | h
    · exact mem_cons_self
    · split_ifs at h
      · exact mem_cons_of_mem _ (ih h)
      · exact absurd h not_mem_nil

theorem replaysWhole_iff (mem : MemTable c) (log : Bytes) : ReplaysWhole mem log ↔
    (∀ record ∈ recordsRead (Log.records log),
      recordEntries record = [] ∨ WholeBatch record (recordEntries record)) ∧
    ∀ record ∈ recordsRead (Log.records log), ∀ e ∈ recordEntries record,
      keySequence e.ik ≤ (({ mem } : LogRecovery c).recoverLogFile false log).2.maxSequence := by
  obtain ⟨status, hr⟩ := exists_replay_eq log
  have hst : (({ mem } : LogRecovery c).recoverLogFile false log).2 =
      (applyRecords LogRecovery.replayRecord { mem } (Log.records log)).2 := by
    rw [LogRecovery.recoverLogFile_of_not_paranoid, hr]
    rcases applyRecords LogRecovery.replayRecord { mem } (Log.records log) with ⟨e | u, st⟩ <;> rfl
  have hperm := (applyRecords_replayRecord ({ mem } : LogRecovery c) (Log.records log)).1
  rw [ReplaysWhole, hst]
  constructor
  · rintro ⟨inserted, hins, hw, hle⟩
    have hsame : inserted.Perm ((recordsRead (Log.records log)).flatMap recordEntries) :=
      (perm_append_left_iff _).mp (hins.symm.trans hperm)
    refine ⟨hw.whole hsame, fun record hrec e he => hle e ?_⟩
    exact hsame.mem_iff.mpr (mem_flatMap.mpr ⟨record, hrec, he⟩)
  · rintro ⟨hw, hle⟩
    refine ⟨_, hperm, allOrNone_flatMap hw, fun e he => ?_⟩
    obtain ⟨record, hrec, he⟩ := mem_flatMap.mp he
    exact hle record hrec e he

theorem convertsWhole_iff (log : Bytes) : ConvertsWhole c log ↔
    ∀ record ∈ Log.records log,
      recordEntries record = [] ∨ WholeBatch record (recordEntries record) := by
  obtain ⟨status, hr⟩ := exists_replay_eq log
  obtain ⟨mem, happly, hperm⟩ := perm_applyRecords_repair ({} : MemTable c) (Log.records log)
  have hents : Repairer.logEntries c log = mem.entries := by
    rw [Repairer.logEntries, hr, happly]
    rfl
  rw [ConvertsWhole, hents]
  constructor
  · rintro ⟨inserted, hins, hw⟩
    exact hw.whole (hins.symm.trans hperm)
  · exact fun h => ⟨_, hperm, allOrNone_flatMap h⟩

/-- The largest sequence number that `recover_log_file` returns. -/
theorem le_maxSequence_iff (mem : MemTable c) (log : Bytes) (n : ℕ) :
    n ≤ (({ mem } : LogRecovery c).recoverLogFile false log).2.maxSequence ↔
      n = 0 ∨ ∃ record ∈ recordsRead (Log.records log), ∃ batch, batchOf record = some batch ∧
        batch.WellFormed ∧ n ≤ batch.lastSequence := by
  obtain ⟨status, hr⟩ := exists_replay_eq log
  have hmax := (applyRecords_replayRecord ({ mem } : LogRecovery c) (Log.records log)).2 n
  rw [← Nat.le_zero, ← hmax, LogRecovery.recoverLogFile_of_not_paranoid, hr]
  rcases applyRecords LogRecovery.replayRecord { mem } (Log.records log) with ⟨e | u, st⟩ <;> rfl

/-- **Which logs are replayed whole**, by a recovery and by a repair. -/
theorem replaysWhole_iff_intact (mem : MemTable c) (log : Bytes) :
    ReplaysWhole mem log ∧ ConvertsWhole c log ↔ Intact log := by
  have hbound : ∀ {record batch}, batchOf record = some batch → batch.handled ≠ [] →
      batch.sequence + batch.handled.length ≤ 2 ^ 56 →
      ((∀ e ∈ recordEntries record, keySequence e.ik ≤
          (({ mem } : LogRecovery c).recoverLogFile false log).2.maxSequence) ↔
        (1 < batch.sequence + batch.handled.length →
          ∃ record' ∈ recordsRead (Log.records log), ∃ batch', batchOf record' = some batch' ∧
            batch'.WellFormed ∧
            batch.sequence + batch.handled.length ≤ batch'.lastSequence + 1)) := by
    intro record batch hb hne hbits
    have hpos := length_pos_iff.mpr hne
    rw [keySequence_le_iff hb hne hbits, ← Nat.sub_le_iff_le_add, le_maxSequence_iff]
    simp only [Nat.sub_le_iff_le_add]
    constructor
    · exact fun h hlt => h.resolve_left (by omega)
    · intro h
      by_cases hlt : 1 < batch.sequence + batch.handled.length
      · exact .inr (h hlt)
      · exact .inl (by omega)
  rw [replaysWhole_iff, convertsWhole_iff]
  constructor
  · rintro ⟨⟨-, hle⟩, hw⟩
    refine ⟨fun record hrec => whole_iff.mp (hw record hrec), ?_⟩
    intro record hrec batch hb hlt hne
    have hbits := (whole_iff.mp (hw record (mem_of_mem_recordsRead hrec)) batch hb hne).2
    exact (hbound hb hne hbits).mp (hle record hrec) hlt
  · intro h
    have hw := fun record hrec => whole_iff.mpr (h.whole record hrec)
    refine ⟨⟨fun record hrec => hw record (mem_of_mem_recordsRead hrec), ?_⟩, hw⟩
    intro record hrec
    by_cases hnil : recordEntries record = []
    · exact fun e he => absurd (hnil ▸ he) not_mem_nil
    · rw [recordEntries_eq_nil_iff] at hnil
      push Not at hnil
      obtain ⟨batch, hb, hne⟩ := hnil
      have hbits := (h.whole record (mem_of_mem_recordsRead hrec) batch hb hne).2
      exact (hbound hb hne hbits).mpr fun hlt => h.bounded record hrec batch hb hlt hne

/-- A batch of two operations of which the second has an unknown tag. -/
def tornBatch : WriteBatch where
  rep := putFixed64 1 ++ putFixed32 2 ++ (WriteBatchRecord.put [97] [1]).encode ++ [7]
  header_le := by decide

/-- The log with this batch as its only record. -/
def tornBatchLog : Bytes := (({} : LogWriter).addRecord tornBatch.rep).sink

private theorem not_whole_tornBatch : ¬ (recordEntries tornBatch.rep = [] ∨
    WholeBatch tornBatch.rep (recordEntries tornBatch.rep)) := by
  intro h
  exact (whole_iff.mp h tornBatch rfl (by decide +kernel)).1 (by decide +kernel)

/-- **The first operation of a batch that is refused stays in the memtable**, with a sequence number
above the one that is returned, and gets into the table of a repair. -/
theorem not_replaysWhole_tornBatchLog :
    (({} : LogRecovery bytewiseComparator).recoverLogFile false tornBatchLog).2.mem.entries =
      [⟨internalKey [97] 1 .value, [1]⟩] ∧
    (({} : LogRecovery bytewiseComparator).recoverLogFile false tornBatchLog).2.maxSequence = 0 ∧
    Repairer.logEntries bytewiseComparator tornBatchLog = [⟨internalKey [97] 1 .value, [1]⟩] ∧
    ¬ ReplaysWhole ({} : MemTable bytewiseComparator) tornBatchLog ∧
    ¬ ConvertsWhole bytewiseComparator tornBatchLog := by
  have hrecs : Log.records tornBatchLog = [tornBatch.rep] := by decide +kernel
  refine ⟨by decide +kernel, by decide +kernel, by decide +kernel, fun h => ?_, fun h => ?_⟩
  · rw [replaysWhole_iff, hrecs] at h
    exact not_whole_tornBatch (h.1 tornBatch.rep mem_cons_self)
  · rw [convertsWhole_iff, hrecs] at h
    exact not_whole_tornBatch (h tornBatch.rep mem_cons_self)

end PulsearcDb
