import PulsearcDb.Format
import PulsearcDb.WriteBatch
import Mathlib.Data.List.Sort

/-!
# The memtable

`MemTable` (`memtable/memtable.rs`) keeps its entries in a skip list ordered by internal key. The
model is the sorted list of the entries. The skip list inserts a new entry before the first one that
is not smaller, and a lookup seeks the first entry that is not smaller than the lookup key.

`MemTableInserter` (`db_impl/db_impl.rs`) is the handler with which a batch is iterated: it numbers
the records from its sequence number on and adds them, so that what it adds are the
`WriteBatchRecord.entriesFrom` of the records.
-/

namespace PulsearcDb

open List

/-- An entry of a memtable or a table: an internal key and a value. -/
structure Entry where
  ik : Bytes
  value : Bytes
  deriving DecidableEq, Repr

/-- `varint_length`. -/
def varintLength (value : ℕ) : ℕ := if value < 128 then 1 else varintLength (value / 128) + 1

theorem pairwise_icmp_nil (c : Comparator) :
    ([] : List Entry).Pairwise fun a b => (icmp c a.ik b.ik).isLE :=
  List.Pairwise.nil

/-- The entries in the order of their internal keys. -/
structure MemTable (c : Comparator) where
  entries : List Entry := []
  sorted : entries.Pairwise fun a b => (icmp c a.ik b.ik).isLE := by
    first | exact pairwise_icmp_nil _ | simp

namespace MemTable

variable {c : Comparator}

instance : Std.Total fun a b : Entry => (icmp c a.ik b.ik).isLE = true where
  total a b := by
    have hswap : icmp c b.ik a.ik = (icmp c a.ik b.ik).swap := Std.OrientedCmp.eq_swap
    rw [hswap]
    cases icmp c a.ik b.ik <;> simp

instance : IsTrans Entry fun a b => (icmp c a.ik b.ik).isLE = true where
  trans _ _ _ := Std.TransCmp.isLE_trans

/-- The entry is placed before the first one that is not smaller. -/
def insert (m : MemTable c) (e : Entry) : MemTable c where
  entries := m.entries.orderedInsert (fun a b => (icmp c a.ik b.ik).isLE = true) e
  sorted := m.sorted.orderedInsert e m.entries

theorem mem_insert {m : MemTable c} {e e' : Entry} :
    e' ∈ (m.insert e).entries ↔ e' = e ∨ e' ∈ m.entries :=
  mem_orderedInsert _

theorem mem_foldl_insert {m : MemTable c} {entries : List Entry} {e : Entry} :
    e ∈ (entries.foldl insert m).entries ↔ e ∈ m.entries ∨ e ∈ entries := by
  induction entries generalizing m with
  | nil => simp
  | cons e' entries ih =>
    rw [foldl_cons, ih, mem_insert, mem_cons]
    tauto

/-- `add`, with the encoded size that it returns. -/
def add (m : MemTable c) (sequence : ℕ) (valueType : ValueType) (key value : Bytes) :
    ℕ × MemTable c :=
  let internalKeySize := key.length + 8
  (varintLength internalKeySize + internalKeySize + varintLength value.length + value.length,
    m.insert ⟨internalKey key sequence valueType, value⟩)

/-- The first entry that is not smaller than a target. -/
def seek (m : MemTable c) (target : Bytes) : Option Entry :=
  m.entries.find? fun e => icmp c e.ik target != .lt

/-- `get`: `none` when the memtable has no answer, `NotFound` for a tombstone. -/
def get (m : MemTable c) (key : Bytes) (sequence : ℕ) : Option (Result Bytes) :=
  match m.seek (lookupKey key sequence) with
  | none => none
  | some entry =>
    if c.compare (userKey entry.ik) key != .eq then none
    else if keyTypeByte entry.ik = ValueType.deletion.toByte then
      some (.error (Status.notFound "memtable tombstone"))
    else some (.ok entry.value)

end MemTable

/-! ### Inserting a batch -/

/-- The handler that adds records to a memtable. -/
structure MemTableInserter (c : Comparator) where
  sequence : ℕ
  mem : MemTable c
  bytesAdded : ℕ := 0

namespace WriteBatchRecord

/-- The entry of a record with a sequence number. -/
def toEntry (sequence : ℕ) : WriteBatchRecord → Entry
  | delete key => ⟨internalKey key sequence .deletion, []⟩
  | put key value => ⟨internalKey key sequence .value, value⟩

theorem keySequence_toEntry {sequence : ℕ} (h : sequence ≤ maxSequenceNumber)
    (record : WriteBatchRecord) : keySequence (record.toEntry sequence).ik = sequence := by
  cases record <;> exact keySequence_internalKey h _ _

/-- The entries of records that are numbered one after the other. -/
def entriesFrom (sequence : ℕ) : List WriteBatchRecord → List Entry
  | [] => []
  | record :: records => record.toEntry sequence :: entriesFrom (sequence + 1) records

end WriteBatchRecord

namespace MemTableInserter

variable {c : Comparator}

/-- The methods `put` and `delete` of the handler. -/
def handle (ins : MemTableInserter c) (record : WriteBatchRecord) : MemTableInserter c :=
  let added :=
    match record with
    | .put key value => ins.mem.add ins.sequence .value key value
    | .delete key => ins.mem.add ins.sequence .deletion key []
  { sequence := ins.sequence + 1, mem := added.2, bytesAdded := ins.bytesAdded + added.1 }

theorem sequence_handle (ins : MemTableInserter c) (record : WriteBatchRecord) :
    (ins.handle record).sequence = ins.sequence + 1 := rfl

theorem mem_handle (ins : MemTableInserter c) (record : WriteBatchRecord) :
    (ins.handle record).mem = ins.mem.insert (record.toEntry ins.sequence) := by
  cases record <;> rfl

/-- **What an inserter adds.** -/
theorem mem_foldl_handle {ins : MemTableInserter c} {records : List WriteBatchRecord} {e : Entry} :
    e ∈ (records.foldl handle ins).mem.entries ↔
      e ∈ ins.mem.entries ∨ e ∈ WriteBatchRecord.entriesFrom ins.sequence records := by
  induction records generalizing ins with
  | nil => simp [WriteBatchRecord.entriesFrom]
  | cons record records ih =>
    rw [foldl_cons, ih, mem_handle, sequence_handle, MemTable.mem_insert,
      WriteBatchRecord.entriesFrom, mem_cons]
    tauto

theorem sequence_foldl_handle (ins : MemTableInserter c) (records : List WriteBatchRecord) :
    (records.foldl handle ins).sequence = ins.sequence + records.length := by
  induction records generalizing ins with
  | nil => rfl
  | cons record records ih =>
    rw [foldl_cons, ih, sequence_handle, length_cons]
    omega

/-- The entries of the records are added to those that were there. -/
theorem perm_foldl_handle (ins : MemTableInserter c) (records : List WriteBatchRecord) :
    (records.foldl handle ins).mem.entries.Perm
      (ins.mem.entries ++ WriteBatchRecord.entriesFrom ins.sequence records) := by
  induction records generalizing ins with
  | nil => rw [WriteBatchRecord.entriesFrom, append_nil, foldl_nil]
  | cons record records ih =>
    rw [foldl_cons, WriteBatchRecord.entriesFrom]
    refine (ih _).trans ?_
    rw [mem_handle, sequence_handle]
    exact ((perm_orderedInsert _ _ _).append_right _).trans perm_middle.symm

/-- The size that is added up does not enter into anything else. -/
theorem foldl_handle_add (n : ℕ) (ins : MemTableInserter c) (records : List WriteBatchRecord) :
    records.foldl handle { ins with bytesAdded := n + ins.bytesAdded } =
      { records.foldl handle ins with
        bytesAdded := n + (records.foldl handle ins).bytesAdded } := by
  induction records generalizing ins with
  | nil => rfl
  | cons record records ih =>
    rw [foldl_cons, foldl_cons, ← ih]
    congr 1
    cases record <;> simp only [handle, Nat.add_assoc]

end MemTableInserter

theorem WriteBatchRecord.length_entriesFrom (sequence : ℕ) (records : List WriteBatchRecord) :
    (entriesFrom sequence records).length = records.length := by
  induction records generalizing sequence with
  | nil => rfl
  | cons record records ih => rw [entriesFrom, length_cons, ih, length_cons]

theorem WriteBatchRecord.getElem?_entriesFrom (sequence : ℕ) (records : List WriteBatchRecord)
    (i : ℕ) : (entriesFrom sequence records)[i]? = records[i]?.map (toEntry (sequence + i)) := by
  induction records generalizing sequence i with
  | nil => rfl
  | cons record records ih =>
    cases i with
    | zero => rfl
    | succ i => rw [entriesFrom, getElem?_cons_succ, ih, getElem?_cons_succ,
        Nat.add_right_comm, Nat.add_assoc]

theorem WriteBatchRecord.entriesFrom_append (sequence : ℕ) (records more : List WriteBatchRecord) :
    entriesFrom sequence (records ++ more) =
      entriesFrom sequence records ++ entriesFrom (sequence + records.length) more := by
  induction records generalizing sequence with
  | nil => rfl
  | cons record records ih =>
    rw [cons_append, entriesFrom, entriesFrom, ih, cons_append, length_cons]
    congr 3
    omega

end PulsearcDb
