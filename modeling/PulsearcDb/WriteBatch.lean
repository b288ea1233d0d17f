import PulsearcDb.Env

/-!
# Write batches

A `WriteBatch` (`write_batch/write_batch_wrapper.rs`) is a byte string: eight bytes of sequence
number, four bytes of record count, and the records. Nothing ties the count or the records to each
other: `set_contents` takes any twelve bytes or more, and `set_count` any count. Only `iterate`
parses the records. It hands them to its handler one by one, so that a malformed record or a wrong
count is found after the records before it have been handled (`iterate_eq_foldl`).
-/

namespace PulsearcDb

open List

/-- A deletion or a put. -/
inductive WriteBatchRecord
  | delete (key : Bytes)
  | put (key value : Bytes)
  deriving DecidableEq, Repr

namespace WriteBatchRecord

/-- The tag, the key and the value. -/
def encode : WriteBatchRecord → Bytes
  | delete key => 0 :: putLengthPrefixedSlice key
  | put key value => 1 :: (putLengthPrefixedSlice key ++ putLengthPrefixedSlice value)

/-- `visit`: the record that the visitor is called with, and the bytes behind it. -/
def visit (input : Bytes) : Result (WriteBatchRecord × Bytes) := do
  let (tag, input) ← orCorruption "WriteBatchRecord: missing tag" (getU8 input)
  if tag = 0 then
    let (key, input) ← orCorruption "WriteBatchRecord: missing key" (getLengthPrefixedSlice input)
    return (.delete key, input)
  else if tag = 1 then
    let (key, input) ← orCorruption "WriteBatchRecord: missing key" (getLengthPrefixedSlice input)
    let (value, input) ←
      orCorruption "WriteBatchRecord: missing value" (getLengthPrefixedSlice input)
    return (.put key value, input)
  else
    .error (Status.corruption ("WriteBatchRecord: unknown tag " ++ toString tag.toNat))

variable {input : Bytes}

private theorem length_lt_of_orCorruption {message : String} {p : Bytes × Bytes}
    (h : orCorruption message (getLengthPrefixedSlice input) = .ok p) :
    p.2.length < input.length :=
  length_lt_of_getLengthPrefixedSlice (orCorruption_eq_ok.mp h)

private theorem orCorruption_append {message : String} {p : Bytes × Bytes} (tail : Bytes)
    (h : orCorruption message (getLengthPrefixedSlice input) = .ok p) :
    orCorruption message (getLengthPrefixedSlice (input ++ tail)) = .ok (p.1, p.2 ++ tail) :=
  orCorruption_eq_ok.mpr (getLengthPrefixedSlice_append tail (orCorruption_eq_ok.mp h))

/-- A record is read without a look at the bytes behind it. -/
theorem visit_append {rest : Bytes} {record : WriteBatchRecord} (tail : Bytes)
    (h : visit input = .ok (record, rest)) :
    visit (input ++ tail) = .ok (record, rest ++ tail) := by
  cases input with
  | nil => simp [visit, getU8, orCorruption] at h
  | cons tag input =>
    have htag : ∀ l, orCorruption "WriteBatchRecord: missing tag" (getU8 (tag :: l)) =
        .ok (tag, l) := fun _ => rfl
    simp only [visit, cons_append, htag, ok_bind] at h ⊢
    split_ifs at h ⊢
    · obtain ⟨k, hk, h⟩ := bind_eq_ok.mp h
      obtain ⟨rfl, rfl⟩ := Prod.mk.inj (Except.ok.inj h)
      rw [orCorruption_append tail hk]
      rfl
    · obtain ⟨k, hk, h⟩ := bind_eq_ok.mp h
      obtain ⟨v, hv, h⟩ := bind_eq_ok.mp h
      obtain ⟨rfl, rfl⟩ := Prod.mk.inj (Except.ok.inj h)
      rw [orCorruption_append tail hk, ok_bind, orCorruption_append tail hv]
      rfl

theorem length_lt_of_visit {p : WriteBatchRecord × Bytes} (h : visit input = .ok p) :
    p.2.length < input.length := by
  obtain ⟨⟨tag, rest⟩, htag, h⟩ := bind_eq_ok.mp h
  have hrest : rest.length < input.length := by
    rw [orCorruption_eq_ok] at htag
    cases input with
    | nil => simp [getU8] at htag
    | cons b l =>
      obtain ⟨-, rfl⟩ : _ ∧ l = rest := by simpa [getU8] using htag
      simp
  refine lt_of_le_of_lt ?_ hrest
  dsimp only at h
  split_ifs at h
  · obtain ⟨k, hk, h⟩ := bind_eq_ok.mp h
    obtain rfl := Except.ok.inj h
    exact (length_lt_of_orCorruption hk).le
  · obtain ⟨k, hk, h⟩ := bind_eq_ok.mp h
    obtain ⟨v, hv, h⟩ := bind_eq_ok.mp h
    obtain rfl := Except.ok.inj h
    exact ((length_lt_of_orCorruption hv).trans (length_lt_of_orCorruption hk)).le

/-- The strings of a record have 32-bit lengths. -/
def Encodable : WriteBatchRecord → Prop
  | delete key => key.length < 2 ^ 32
  | put key value => key.length < 2 ^ 32 ∧ value.length < 2 ^ 32

theorem visit_encode {record : WriteBatchRecord} (rest : Bytes) (h : record.Encodable) :
    visit (record.encode ++ rest) = .ok (record, rest) := by
  cases record with
  | delete key =>
    simp [visit, encode, getU8, orCorruption, getLengthPrefixedSlice_put _ h]
  | put key value =>
    simp [visit, encode, getU8, orCorruption, getLengthPrefixedSlice_put _ h.1,
      getLengthPrefixedSlice_put _ h.2]

end WriteBatchRecord

/-- `struct WriteBatch`. Every way to make one keeps the twelve bytes of the header. -/
structure WriteBatch where
  rep : Bytes
  header_le : 12 ≤ rep.length
  deriving DecidableEq

namespace WriteBatch

variable {σ : Type}

/-- A sequence number and a count. -/
def headerLen : ℕ := 12

/-- `new`, `clear` and `default`. -/
def new : WriteBatch := ⟨List.replicate headerLen 0, by decide⟩

/-- The count in the header. -/
def count (b : WriteBatch) : ℕ := decodeFixed32 (b.rep.drop 8)

/-- Change the count in the header. -/
def setCount (b : WriteBatch) (count : ℕ) : WriteBatch where
  rep := b.rep.take 8 ++ putFixed32 count ++ b.rep.drop headerLen
  header_le := by
    have := b.header_le
    simp [putFixed32, headerLen]
    omega

/-- The sequence number in the header. -/
def sequence (b : WriteBatch) : ℕ := decodeFixed64 b.rep

/-- Change the sequence number in the header. -/
def setSequence (b : WriteBatch) (sequence : ℕ) : WriteBatch where
  rep := putFixed64 sequence ++ b.rep.drop 8
  header_le := by
    have := b.header_le
    simp
    omega

/-- Append the bytes of a record. -/
def push (b : WriteBatch) (bytes : Bytes) : WriteBatch :=
  ⟨b.rep ++ bytes, b.header_le.trans (by simp)⟩

/-- Count and append a put. -/
def put (b : WriteBatch) (key value : Bytes) : WriteBatch :=
  (b.setCount ((b.count + 1) % 2 ^ 32)).push (WriteBatchRecord.put key value).encode

/-- Count and append a deletion. -/
def delete (b : WriteBatch) (key : Bytes) : WriteBatch :=
  (b.setCount ((b.count + 1) % 2 ^ 32)).push (WriteBatchRecord.delete key).encode

/-- The bytes of the batch. -/
def contents (b : WriteBatch) : Bytes := b.rep

/-- The bytes of the log record. -/
def contentsWithSequence (b : WriteBatch) (sequence : ℕ) : Bytes := (b.setSequence sequence).rep

/-- The length of the batch. -/
def approximateSize (b : WriteBatch) : ℕ := b.rep.length

/-- Only the length of the bytes is checked. -/
def setContents (contents : Bytes) : Result WriteBatch :=
  if h : contents.length < headerLen then
    .error (Status.corruption "malformed WriteBatch (too small)")
  else .ok ⟨contents, not_lt.mp h⟩

/-- The bytes behind the header. -/
def body (b : WriteBatch) : Bytes := b.rep.drop headerLen

/-- Add the records and the count of another batch. -/
def append (b source : WriteBatch) : WriteBatch :=
  (b.setCount ((b.count + source.count) % 2 ^ 32)).push source.body

/-- The loop of `iterate`, with the `u32` count of the records that have been handled. -/
def iterateLoop (handler : σ → WriteBatchRecord → σ) (st : σ) (count : ℕ) (input : Bytes) :
    Result ℕ × σ :=
  if input = [] then (.ok count, st)
  else
    match _h : WriteBatchRecord.visit input with
    | .error e => (.error e, st)
    | .ok (record, rest) => iterateLoop handler (handler st record) ((count + 1) % 2 ^ 32) rest
termination_by input.length
decreasing_by exact WriteBatchRecord.length_lt_of_visit ‹_›

/-- Handle the records, then compare the count. -/
def iterate (b : WriteBatch) (handler : σ → WriteBatchRecord → σ) (st : σ) : Outcome σ :=
  match iterateLoop handler st 0 b.body with
  | (.error e, st) => (.error e, st)
  | (.ok count, st) =>
    if count ≠ b.count then (.error (Status.corruption "WriteBatch has wrong count"), st)
    else (.ok (), st)

/-- `RecordCollector`. -/
def collect (records : List WriteBatchRecord) (record : WriteBatchRecord) : List WriteBatchRecord :=
  records ++ [record]

/-- The records that `iterate` hands to its handler, those before a failure included. -/
def handled (b : WriteBatch) : List WriteBatchRecord := (b.iterate collect []).2

/-- The records of a well-formed batch. -/
def records (b : WriteBatch) : Result (List WriteBatchRecord) :=
  (b.iterate collect []).1.map fun _ => b.handled

/-- `iterate` accepts the batch. -/
def WellFormed (b : WriteBatch) : Prop := (b.iterate collect []).1 = .ok ()

instance (b : WriteBatch) : Decidable b.WellFormed :=
  inferInstanceAs (Decidable (_ = _))

/-! ### What a handler sees -/

private theorem iterateLoop_eq (handler : σ → WriteBatchRecord → σ) (st : σ)
    (records : List WriteBatchRecord) (count : ℕ) (input : Bytes) :
    iterateLoop handler (records.foldl handler st) count input =
      ((iterateLoop collect records count input).1,
        (iterateLoop collect records count input).2.foldl handler st) := by
  fun_induction iterateLoop collect records count input with
  | case1 => simp [iterateLoop]
  | case2 records count input hne e hvisit =>
    rw [iterateLoop, if_neg hne]
    split <;> simp_all
  | case3 records count input hne record rest hvisit ih =>
    rw [iterateLoop, if_neg hne]
    split
    · simp_all
    · rename_i record' rest' hvisit'
      obtain ⟨rfl, rfl⟩ : record = record' ∧ rest = rest' := by
        simpa [hvisit] using hvisit'
      rw [← ih, collect, foldl_append]
      rfl

/-- **Every handler is run on the same records**, and the status does not depend on it. -/
theorem iterate_eq_foldl (b : WriteBatch) (handler : σ → WriteBatchRecord → σ) (st : σ) :
    b.iterate handler st = ((b.iterate collect []).1, b.handled.foldl handler st) := by
  have hloop := iterateLoop_eq handler st [] 0 b.body
  rw [foldl_nil] at hloop
  simp only [handled, iterate, hloop]
  rcases iterateLoop collect [] 0 b.body with ⟨e | count, records⟩
  · rfl
  · dsimp only
    split_ifs <;> rfl

/-! ### The sequence number -/

section SetSequence

variable (b : WriteBatch) (n : ℕ)

theorem setContents_rep : setContents b.rep = .ok b := dif_neg (not_lt.mpr b.header_le)

theorem body_setSequence : (b.setSequence n).body = b.body := by
  have hdrop : (putFixed64 n ++ b.rep.drop 8).drop (8 + 4) = (b.rep.drop 8).drop 4 := by
    rw [← drop_drop, drop_left' (length_putFixed64 n)]
  rw [body, body, headerLen, setSequence, hdrop, drop_drop]

theorem count_setSequence : (b.setSequence n).count = b.count := by
  rw [count, count, setSequence, drop_left' (length_putFixed64 n)]

theorem sequence_setSequence {n : ℕ} (h : n < 2 ^ 64) : (b.setSequence n).sequence = n := by
  have htake : (putFixed64 n ++ b.rep.drop 8).take 8 = putFixed64 n :=
    take_left' (length_putFixed64 n)
  have hdec := decodeFixed64_putFixed64 h
  rw [decodeFixed64, take_of_length_le (length_putFixed64 n).le] at hdec
  rw [sequence, setSequence, decodeFixed64, htake, hdec]

/-- The records of a batch do not depend on its sequence number. -/
theorem iterate_setSequence (handler : σ → WriteBatchRecord → σ) (st : σ) :
    (b.setSequence n).iterate handler st = b.iterate handler st := by
  rw [iterate, iterate, body_setSequence, count_setSequence]

end SetSequence

/-! ### Appending batches -/

variable {input key : Bytes} {b : WriteBatch}

private theorem iterateLoop_append (handler : σ → WriteBatchRecord → σ) {st st' : σ} {n m : ℕ}
    (tail : Bytes) (h : iterateLoop handler st n input = (.ok m, st')) :
    iterateLoop handler st n (input ++ tail) = iterateLoop handler st' m tail := by
  fun_induction iterateLoop handler st n input with
  | case1 st n =>
    obtain ⟨hn, rfl⟩ := Prod.mk.inj h
    obtain rfl := Except.ok.inj hn
    rw [nil_append]
  | case2 => simp at h
  | case3 st n input hne record rest hvisit ih =>
    rw [iterateLoop, if_neg (by simp [hne])]
    have hvisit' := WriteBatchRecord.visit_append tail hvisit
    split
    · simp_all
    · rename_i record' rest' heq
      obtain ⟨rfl, rfl⟩ : record = record' ∧ rest ++ tail = rest' := by simpa [hvisit'] using heq
      exact ih h

/-- The loop counts its records modulo the width of the counter, and each takes a byte. -/
private theorem iterateLoop_collect {records records' : List WriteBatchRecord} {n m : ℕ}
    (h : iterateLoop collect records n input = (.ok m, records'))
    (hn : n = records.length % 2 ^ 32) :
    m = records'.length % 2 ^ 32 ∧ records'.length ≤ records.length + input.length := by
  fun_induction iterateLoop collect records n input with
  | case1 records n =>
    obtain ⟨hm, rfl⟩ := Prod.mk.inj h
    obtain rfl := Except.ok.inj hm
    exact ⟨hn, Nat.le_add_right _ _⟩
  | case2 => simp at h
  | case3 records n input hne record rest hvisit ih =>
    have hlt := WriteBatchRecord.length_lt_of_visit hvisit
    have hlen : (collect records record).length = records.length + 1 := by simp [collect]
    obtain ⟨hm, hle⟩ := ih h (by rw [hlen, hn, Nat.mod_add_mod])
    refine ⟨hm, ?_⟩
    simp only [hlen] at hle hlt
    omega

private theorem foldl_collect (records more : List WriteBatchRecord) :
    more.foldl collect records = records ++ more := by
  induction more generalizing records with
  | nil => rw [foldl_nil, append_nil]
  | cons record more ih =>
    rw [foldl_cons, ih, collect, append_assoc, singleton_append]

/-- Where the counter starts makes no difference to the records. -/
private theorem iterateLoop_of_ok {records records' : List WriteBatchRecord} {n m : ℕ}
    (h : iterateLoop collect records n input = (.ok m, records')) (n' : ℕ) :
    ∃ m', iterateLoop collect records n' input = (.ok m', records') := by
  fun_induction iterateLoop collect records n input generalizing n' with
  | case1 records n =>
    obtain ⟨-, rfl⟩ := Prod.mk.inj h
    exact ⟨n', by rw [iterateLoop, if_pos rfl]⟩
  | case2 => simp at h
  | case3 records n input hne record rest hvisit ih =>
    obtain ⟨m', hm'⟩ := ih h ((n' + 1) % 2 ^ 32)
    refine ⟨m', ?_⟩
    rw [iterateLoop, if_neg hne]
    split
    · simp_all
    · rename_i record' rest' heq
      obtain ⟨rfl, rfl⟩ : record = record' ∧ rest = rest' := by simpa [hvisit] using heq
      exact hm'

/-- The batch parses, and its count is the number of its records. -/
structure Valid (b : WriteBatch) : Prop where
  wellFormed : b.WellFormed
  count : b.count = b.handled.length

instance (b : WriteBatch) : Decidable b.Valid :=
  decidable_of_iff (b.WellFormed ∧ b.count = b.handled.length)
    ⟨fun h => ⟨h.1, h.2⟩, fun h => ⟨h.1, h.2⟩⟩

theorem wellFormed_iff :
    b.WellFormed ↔ iterateLoop collect [] 0 b.body = (.ok b.count, b.handled) := by
  rw [WellFormed, handled, iterate]
  rcases iterateLoop collect [] 0 b.body with ⟨e | n, records⟩
  · simp
  · by_cases hn : n = b.count <;> simp [hn]

theorem WellFormed.length_handled_le (h : b.WellFormed) : b.handled.length ≤ b.approximateSize := by
  have hle := (iterateLoop_collect (wellFormed_iff.mp h) rfl).2
  simp only [body, length_drop, length_nil, Nat.zero_add] at hle
  rw [approximateSize]
  omega

private theorem rep_append (b source : WriteBatch) :
    (b.append source).rep = b.rep.take 8 ++ putFixed32 ((b.count + source.count) % 2 ^ 32) ++
      b.rep.drop headerLen ++ source.body := rfl

theorem body_append (b source : WriteBatch) : (b.append source).body = b.body ++ source.body := by
  have hlen : (b.rep.take 8 ++ putFixed32 ((b.count + source.count) % 2 ^ 32)).length =
      headerLen := by
    rw [length_append, length_take, length_putFixed32,
      Nat.min_eq_left (le_trans (by decide) b.header_le)]
    rfl
  rw [body, rep_append, append_assoc, drop_left' hlen]
  rfl

theorem count_append (b source : WriteBatch) :
    (b.append source).count = (b.count + source.count) % 2 ^ 32 := by
  have hlen : (b.rep.take 8).length = 8 := by
    rw [length_take, Nat.min_eq_left (le_trans (by decide) b.header_le)]
  rw [count, rep_append, append_assoc, append_assoc, drop_left' hlen]
  exact decodeFixed32_putFixed32 _ (Nat.mod_lt _ (by decide))

/-- **Two batches become one** with the records of both. -/
theorem Valid.append {source : WriteBatch} (h : b.Valid) (h' : source.Valid)
    (hlen : b.handled.length + source.handled.length < 2 ^ 32) :
    (b.append source).Valid ∧ (b.append source).handled = b.handled ++ source.handled := by
  have hcnt : (b.append source).count = b.handled.length + source.handled.length := by
    rw [count_append, h.count, h'.count, Nat.mod_eq_of_lt hlen]
  have hloop : iterateLoop collect [] 0 (b.append source).body =
      (.ok (b.append source).count, b.handled ++ source.handled) := by
    obtain ⟨m, hm⟩ := iterateLoop_of_ok (wellFormed_iff.mp h'.wellFormed) b.count
    have hshift := iterateLoop_eq collect b.handled [] b.count source.body
    rw [foldl_nil, hm, foldl_collect] at hshift
    have hcounted := (iterateLoop_collect hshift (by rw [h.count, Nat.mod_eq_of_lt (by omega)])).1
    rw [length_append, Nat.mod_eq_of_lt hlen] at hcounted
    rw [body_append, iterateLoop_append collect _ (wellFormed_iff.mp h.wellFormed), hshift, hcnt,
      hcounted]
  have hhandled : (b.append source).handled = b.handled ++ source.handled := by
    rw [handled, iterate, hloop]
    simp
  refine ⟨⟨wellFormed_iff.mpr (hhandled ▸ hloop), ?_⟩, hhandled⟩
  rw [hcnt, hhandled, length_append]

/-! ### A batch of one record -/

private theorem iterateLoop_encode (handler : σ → WriteBatchRecord → σ) (st : σ)
    {record : WriteBatchRecord} (h : record.Encodable) :
    iterateLoop handler st 0 record.encode = (.ok 1, handler st record) := by
  have hvisit := WriteBatchRecord.visit_encode [] h
  rw [append_nil] at hvisit
  have hne : record.encode ≠ [] := by cases record <;> simp [WriteBatchRecord.encode]
  rw [iterateLoop, if_neg hne]
  split
  · simp_all
  · rename_i record' rest' hvisit'
    obtain ⟨rfl, rfl⟩ : record = record' ∧ [] = rest' := by simpa [hvisit] using hvisit'
    simp [iterateLoop]

theorem count_new_delete (key : Bytes) : (new.delete key).count = 1 := by
  simp [count, delete, push, setCount, new, headerLen, putFixed32, decodeFixed32, leBytes, leValue]

theorem iterate_new_delete (handler : σ → WriteBatchRecord → σ) (st : σ) (h : key.length < 2 ^ 32) :
    (new.delete key).iterate handler st = (.ok (), handler st (.delete key)) := by
  have hbody : (new.delete key).body = (WriteBatchRecord.delete key).encode := by
    simp [body, delete, push, setCount, new, headerLen, putFixed32]
  have hencodable : (WriteBatchRecord.delete key).Encodable := h
  rw [iterate, hbody, iterateLoop_encode _ _ hencodable, count_new_delete]
  rfl

theorem wellFormed_new_delete (h : key.length < 2 ^ 32) : (new.delete key).WellFormed := by
  rw [WellFormed, iterate_new_delete _ _ h]

theorem handled_new_delete (h : key.length < 2 ^ 32) :
    (new.delete key).handled = [.delete key] := by
  rw [handled, iterate_new_delete _ _ h]
  rfl

end WriteBatch
end PulsearcDb
