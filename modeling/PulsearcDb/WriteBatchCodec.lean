import PulsearcDb.WriteBatch

/-!
# The two representations of a write batch

A batch exists as a byte string (`write_batch/write_batch_wrapper.rs`, `WriteBatch` here) and as a
header with a list of records (`write_batch/write_batch.rs`, `WriteBatchMessage` here). The
operations on the byte string keep it the encoding of the message (`Built.rep_eq`).

The decoder of a message reads as many records as the header says and may leave bytes behind. The
byte string is parsed to its end and the count compared afterwards. Both read the same records one
behind the other (`WriteBatchRecord.ParsesTo`), so they agree, as long as the `u32` counter of
`iterate` does not wrap around.
-/

namespace PulsearcDb

open List

/-- The twelve bytes in front of the records. -/
structure WriteBatchHeader where
  sequence : ℕ
  count : ℕ
  deriving DecidableEq

namespace WriteBatchHeader

/-- The sequence number and the count. -/
def encode (h : WriteBatchHeader) : Bytes := putFixed64 h.sequence ++ putFixed32 h.count

/-- Read a header through a cursor. -/
def decodeFrom (input : Bytes) : Result (WriteBatchHeader × Bytes) := do
  let (sequence, input) ← orCorruption "WriteBatchHeader: missing sequence" (getFixed64 input)
  let (count, input) ← orCorruption "WriteBatchHeader: missing count" (getFixed32 input)
  return (⟨sequence, count⟩, input)

end WriteBatchHeader

/-- `WriteBatchRecord::decode_from`. -/
def WriteBatchRecord.decodeFrom (input : Bytes) : Result (WriteBatchRecord × Bytes) := do
  let (tag, input) ← orCorruption "WriteBatchRecord: missing tag" (getU8 input)
  if tag = 0 then
    let (key, input) ← orCorruption "WriteBatchRecord: missing key" (getLengthPrefixedSlice input)
    return (.delete key, input)
  else if tag = 1 then
    let (key, input) ← orCorruption "WriteBatchRecord: missing key" (getLengthPrefixedSlice input)
    let (value, input) ←
      orCorruption "WriteBatchRecord: missing value" (getLengthPrefixedSlice input)
    return (.put key value, input)
  else
    .error (Status.corruption ("WriteBatchRecord: unknown tag " ++ toString tag.toNat))

/-- `write_batch::write_batch::WriteBatch`. -/
structure WriteBatchMessage where
  header : WriteBatchHeader
  records : List WriteBatchRecord
  deriving DecidableEq

namespace WriteBatchMessage

/-- The header and the records. -/
def encode (m : WriteBatchMessage) : Bytes :=
  m.header.encode ++ m.records.flatMap WriteBatchRecord.encode

/-- The loop of `decode_from`. -/
def decodeRecords : ℕ → Bytes → Result (List WriteBatchRecord × Bytes)
  | 0, input => .ok ([], input)
  | n + 1, input => do
    let (record, input) ← WriteBatchRecord.decodeFrom input
    let (records, input) ← decodeRecords n input
    return (record :: records, input)

/-- As many records as the header counts. -/
def decodeFrom (input : Bytes) : Result (WriteBatchMessage × Bytes) := do
  let (header, input) ← WriteBatchHeader.decodeFrom input
  let (records, input) ← decodeRecords header.count input
  return (⟨header, records⟩, input)

end WriteBatchMessage

/-! ### Records one behind the other -/

namespace WriteBatchRecord

/-- The input starts with these records, and this is behind them. -/
def ParsesTo : List WriteBatchRecord → Bytes → Bytes → Prop
  | [], input, rest => input = rest
  | record :: records, input, rest =>
    ∃ behind, visit input = .ok (record, behind) ∧ ParsesTo records behind rest

variable {records : List WriteBatchRecord}

theorem parsesTo_nil_iff : ParsesTo records [] [] ↔ records = [] := by
  constructor
  · intro hp
    cases records with
    | nil => rfl
    | cons record records =>
      obtain ⟨behind, hv, -⟩ := hp
      exact absurd (length_lt_of_visit hv) (Nat.not_lt_zero _)
  · rintro rfl
    rfl

/-- Input that is not empty starts with a record. -/
theorem parsesTo_iff_of_ne_nil {input : Bytes} (hne : input ≠ []) :
    ParsesTo records input [] ↔ ∃ record behind more, visit input = .ok (record, behind) ∧
      ParsesTo more behind [] ∧ records = record :: more := by
  constructor
  · intro hp
    cases records with
    | nil => exact absurd hp hne
    | cons record more =>
      obtain ⟨behind, hv, hmore⟩ := hp
      exact ⟨record, behind, more, hv, hmore, rfl⟩
  · rintro ⟨record, behind, more, hv, hmore, rfl⟩
    exact ⟨behind, hv, hmore⟩

theorem parsesTo_encode (h : ∀ r ∈ records, r.Encodable) :
    ParsesTo records (records.flatMap encode) [] := by
  induction records with
  | nil => rfl
  | cons record records ih =>
    rw [forall_mem_cons] at h
    exact ⟨_, visit_encode _ h.1, ih h.2⟩

end WriteBatchRecord

open WriteBatchRecord

variable {records : List WriteBatchRecord} {input rest : Bytes}

theorem WriteBatchMessage.decodeRecords_eq_ok_iff {n : ℕ} :
    decodeRecords n input = .ok (records, rest) ↔
      records.length = n ∧ ParsesTo records input rest := by
  induction n generalizing input records with
  | zero =>
    rw [decodeRecords, Except.ok.injEq, Prod.mk.injEq]
    constructor
    · rintro ⟨rfl, rfl⟩
      exact ⟨rfl, rfl⟩
    · rintro ⟨hlen, hp⟩
      obtain rfl := eq_nil_of_length_eq_zero hlen
      exact ⟨rfl, hp⟩
  | succ n ih =>
    rw [decodeRecords, bind_eq_ok]
    constructor
    · rintro ⟨⟨record, behind⟩, hrec, h⟩
      obtain ⟨⟨more, rest'⟩, hmore, h⟩ := bind_eq_ok.mp h
      obtain ⟨rfl, rfl⟩ := Prod.mk.inj (Except.ok.inj h)
      obtain ⟨hlen, hp⟩ := ih.mp hmore
      exact ⟨congrArg Nat.succ hlen, behind, hrec, hp⟩
    · rintro ⟨hlen, hp⟩
      obtain ⟨record, more, rfl⟩ := exists_cons_of_length_eq_add_one hlen
      obtain ⟨behind, hrec, hp⟩ := hp
      refine ⟨(record, behind), hrec, ?_⟩
      have hmore : decodeRecords n behind = .ok (more, rest) := ih.mpr ⟨Nat.succ.inj hlen, hp⟩
      simp only [hmore, ok_bind]
      rfl

namespace WriteBatch

/-- The loop of `iterate` reads records to the end of the input. -/
theorem iterateLoop_collect_eq_ok_iff {acc out : List WriteBatchRecord} {n m : ℕ} {input : Bytes} :
    iterateLoop collect acc (n % 2 ^ 32) input = (.ok m, out) ↔
      ∃ records, ParsesTo records input [] ∧ out = acc ++ records ∧
        m = (n + records.length) % 2 ^ 32 := by
  induction hlen : input.length using Nat.strong_induction_on generalizing acc n input with
  | _ length ih =>
    rw [iterateLoop]
    split_ifs with hnil
    · subst hnil
      simp only [parsesTo_nil_iff, exists_eq_left, append_nil, length_nil, Nat.add_zero,
        Prod.mk.injEq, Except.ok.injEq]
      exact ⟨fun h => ⟨h.2.symm, h.1.symm⟩, fun h => ⟨h.2.symm, h.1.symm⟩⟩
    · simp only [parsesTo_iff_of_ne_nil hnil]
      split
      · rename_i e hv
        simp [hv]
      · rename_i record behind hv
        rw [Nat.mod_add_mod, ih _ (hlen ▸ length_lt_of_visit hv) rfl]
        constructor
        · rintro ⟨records, hp, rfl, rfl⟩
          refine ⟨record :: records, ⟨record, behind, records, hv, hp, rfl⟩, ?_, ?_⟩
          · rw [collect, append_assoc, singleton_append]
          · rw [length_cons, Nat.add_assoc, Nat.add_comm 1]
        · rintro ⟨_, ⟨record', behind', records, hv', hp, rfl⟩, rfl, rfl⟩
          rw [hv] at hv'
          obtain ⟨rfl, rfl⟩ := Prod.mk.inj (Except.ok.inj hv')
          refine ⟨records, hp, ?_, ?_⟩
          · rw [collect, append_assoc, singleton_append]
          · rw [length_cons, Nat.add_assoc, Nat.add_comm 1]

/-- **When `records` succeeds**: the body is the records, and their number is the count up to the
width of the counter. -/
theorem records_eq_ok_iff {b : WriteBatch} {records : List WriteBatchRecord} :
    b.records = .ok records ↔ ParsesTo records b.body [] ∧ records.length % 2 ^ 32 = b.count := by
  have hloop := fun m out => @iterateLoop_collect_eq_ok_iff [] out 0 m b.body
  simp only [Nat.zero_mod, nil_append, Nat.zero_add] at hloop
  rw [WriteBatch.records, handled, iterate]
  rcases hiter : iterateLoop collect [] 0 b.body with ⟨e | m, out⟩
  · refine ⟨fun h => by simp [Except.map] at h, ?_⟩
    rintro ⟨hp, -⟩
    have := (hloop (records.length % 2 ^ 32) records).mpr ⟨records, hp, rfl, rfl⟩
    rw [hiter] at this
    simp at this
  · obtain ⟨parsed, hp, rfl, rfl⟩ := (hloop m out).mp hiter
    have huniq : ∀ records, ParsesTo records b.body [] → records = out := by
      intro records hrecs
      have := (hloop (records.length % 2 ^ 32) records).mpr ⟨records, hrecs, rfl, rfl⟩
      rw [hiter] at this
      exact (Prod.mk.inj this).2.symm
    by_cases hcnt : out.length % 2 ^ 32 = b.count
    · simp only [hcnt, ne_eq, not_true_eq_false, if_false, Except.map, Except.ok.injEq]
      constructor
      · rintro rfl
        exact ⟨hp, hcnt⟩
      · rintro ⟨hrecs, -⟩
        exact (huniq records hrecs).symm
    · simp only [hcnt, ne_eq, not_false_eq_true, if_true, Except.map, reduceCtorEq, false_iff]
      rintro ⟨hrecs, hlen⟩
      exact hcnt (huniq records hrecs ▸ hlen)

end WriteBatch

/-! ### The two decoders -/

theorem WriteBatchHeader.decodeFrom_eq_ok_iff {header : WriteBatchHeader} :
    decodeFrom input = .ok (header, rest) ↔ 12 ≤ input.length ∧
      ⟨decodeFixed64 input, decodeFixed32 (input.drop 8)⟩ = header ∧ input.drop 12 = rest := by
  rw [decodeFrom, bind_eq_ok]
  constructor
  · rintro ⟨⟨sequence, behind⟩, hseq, h⟩
    obtain ⟨⟨count, rest'⟩, hcnt, h⟩ := bind_eq_ok.mp h
    obtain ⟨rfl, rfl⟩ := Prod.mk.inj (Except.ok.inj h)
    rw [orCorruption_eq_ok] at hseq hcnt
    obtain ⟨hlen, rfl, rfl⟩ := getFixed_eq_some_iff.mp hseq
    obtain ⟨hlen', rfl, rfl⟩ := getFixed_eq_some_iff.mp hcnt
    rw [length_drop] at hlen'
    exact ⟨by omega, rfl, by rw [drop_drop]⟩
  · rintro ⟨hlen, rfl, rfl⟩
    have hseq : getFixed64 input = (some (decodeFixed64 input), input.drop 8) :=
      getFixed_eq_some_iff.mpr ⟨by omega, rfl, rfl⟩
    have hcnt : getFixed32 (input.drop 8) =
        (some (decodeFixed32 (input.drop 8)), input.drop 12) :=
      getFixed_eq_some_iff.mpr ⟨by rw [length_drop]; omega, rfl, by rw [drop_drop]⟩
    refine ⟨(decodeFixed64 input, input.drop 8), orCorruption_eq_ok.mpr hseq, ?_⟩
    refine bind_eq_ok.mpr ⟨(_, input.drop 12), orCorruption_eq_ok.mpr hcnt, rfl⟩

/-- What the decoder of a message reads. -/
theorem WriteBatchMessage.decodeFrom_eq_ok_iff :
    (∃ header, decodeFrom input = .ok (⟨header, records⟩, rest)) ↔
      12 ≤ input.length ∧ records.length = decodeFixed32 (input.drop 8) ∧
        ParsesTo records (input.drop 12) rest := by
  simp only [decodeFrom, bind_eq_ok]
  constructor
  · rintro ⟨header, ⟨header', behind⟩, hhead, ⟨records', rest'⟩, hrecs, h⟩
    obtain ⟨hmessage, rfl⟩ := Prod.mk.inj (Except.ok.inj h)
    obtain ⟨rfl, rfl⟩ := WriteBatchMessage.mk.inj hmessage
    obtain ⟨hlen, rfl, rfl⟩ := WriteBatchHeader.decodeFrom_eq_ok_iff.mp hhead
    exact ⟨hlen, decodeRecords_eq_ok_iff.mp hrecs⟩
  · rintro ⟨hlen, hrecs⟩
    exact ⟨_, (_, _), WriteBatchHeader.decodeFrom_eq_ok_iff.mpr ⟨hlen, rfl, rfl⟩,
      (records, rest), decodeRecords_eq_ok_iff.mpr hrecs, rfl⟩

/-- **The decoders agree** on an input: the byte string that is set to it has these records if and
only if the message decoded from it has them, with nothing left. -/
def DecodersAgree (c : Bytes) : Prop :=
  ∀ records, WriteBatch.setContents c >>= WriteBatch.records = .ok records ↔
    ∃ header, WriteBatchMessage.decodeFrom c = .ok (⟨header, records⟩, [])

theorem WriteBatch.setContents_records_iff {c : Bytes} :
    setContents c >>= WriteBatch.records = .ok records ↔
      12 ≤ c.length ∧ ParsesTo records (c.drop 12) [] ∧
        records.length % 2 ^ 32 = decodeFixed32 (c.drop 8) := by
  rw [setContents]
  split_ifs with hshort
  · refine iff_of_false (fun h => by cases h) fun h => ?_
    exact not_le.mpr hshort h.1
  · rw [ok_bind, records_eq_ok_iff]
    exact (and_iff_right (not_lt.mp hshort)).symm

theorem decodeFixed32_lt (src : Bytes) : decodeFixed32 src < 2 ^ 32 := by
  refine (leValue_lt _).trans_le ?_
  have hlen : (src.take 4).length ≤ 4 := length_take_le 4 src
  exact (Nat.pow_le_pow_right (by decide) hlen).trans (by decide)

/-- The decoders agree about fewer than 2^32 records. -/
theorem WriteBatch.setContents_records_iff_decodeFrom {c : Bytes} :
    (setContents c >>= WriteBatch.records = .ok records ∧ records.length < 2 ^ 32) ↔
      ∃ header, WriteBatchMessage.decodeFrom c = .ok (⟨header, records⟩, []) := by
  have hcnt := decodeFixed32_lt (c.drop 8)
  rw [setContents_records_iff, WriteBatchMessage.decodeFrom_eq_ok_iff]
  constructor
  · rintro ⟨⟨hlen, hp, hrecs⟩, hlt⟩
    rw [Nat.mod_eq_of_lt hlt] at hrecs
    exact ⟨hlen, hrecs, hp⟩
  · rintro ⟨hlen, hrecs, hp⟩
    refine ⟨⟨hlen, hp, ?_⟩, hrecs ▸ hcnt⟩
    rw [hrecs, Nat.mod_eq_of_lt hcnt]

/-! ### The operations -/

namespace WriteBatch

/-- The batches that the operations build, with the sequence number and the records that have been
put into them. -/
inductive Built : WriteBatch → ℕ → List WriteBatchRecord → Prop
  | new : Built new 0 []
  | clear {b : WriteBatch} {sequence : ℕ} {records : List WriteBatchRecord} :
    Built b sequence records → Built new 0 []
  | setSequence {b : WriteBatch} {sequence : ℕ} {records : List WriteBatchRecord} (n : ℕ) :
    Built b sequence records → Built (b.setSequence n) n records
  | put {b : WriteBatch} {sequence : ℕ} {records : List WriteBatchRecord} {key value : Bytes} :
    Built b sequence records → key.length < 2 ^ 32 → value.length < 2 ^ 32 →
      Built (b.put key value) sequence (records ++ [.put key value])
  | delete {b : WriteBatch} {sequence : ℕ} {records : List WriteBatchRecord} {key : Bytes} :
    Built b sequence records → key.length < 2 ^ 32 →
      Built (b.delete key) sequence (records ++ [.delete key])
  | append {b source : WriteBatch} {sequence sequence' : ℕ}
      {records records' : List WriteBatchRecord} :
    Built b sequence records → Built source sequence' records' →
      Built (b.append source) sequence (records ++ records')

variable {b source : WriteBatch} {sequence sequence' n : ℕ}
  {records records' : List WriteBatchRecord} {body : Bytes}

theorem Built.encodable (h : Built b sequence records) : ∀ r ∈ records, r.Encodable := by
  induction h with
  | new => exact fun _ h => absurd h not_mem_nil
  | clear => exact fun _ h => absurd h not_mem_nil
  | setSequence _ _ ih => exact ih
  | put _ hkey hval ih =>
    exact forall_mem_append.mpr ⟨ih, forall_mem_singleton.mpr ⟨hkey, hval⟩⟩
  | delete _ hkey ih => exact forall_mem_append.mpr ⟨ih, forall_mem_singleton.mpr hkey⟩
  | append _ _ ih ih' => exact forall_mem_append.mpr ⟨ih, ih'⟩

section

variable (h : b.rep = putFixed64 sequence ++ (putFixed32 n ++ body))
include h

/-- The parts of a batch with a given encoding. -/
theorem parts_of_rep :
    b.rep.take 8 = putFixed64 sequence ∧ b.rep.drop 8 = putFixed32 n ++ body ∧ b.body = body := by
  have hbody : (putFixed64 sequence ++ (putFixed32 n ++ body)).drop (8 + 4) = body := by
    rw [← drop_drop, drop_left' (length_putFixed64 _), drop_left' (length_putFixed32 _)]
  refine ⟨?_, ?_, ?_⟩
  · rw [h, take_left' (length_putFixed64 _)]
  · rw [h, drop_left' (length_putFixed64 _)]
  · rw [WriteBatch.body, headerLen, h, hbody]

/-- More records behind those of a batch. -/
theorem rep_setCount_push (m : ℕ) (more : Bytes) :
    ((b.setCount m).push more).rep = putFixed64 sequence ++ (putFixed32 m ++ (body ++ more)) := by
  obtain ⟨htake, -, hbody⟩ := parts_of_rep h
  rw [WriteBatch.body] at hbody
  simp only [push, setCount, htake, hbody, append_assoc]

theorem count_of_rep (hn : n < 2 ^ 32) : b.count = n := by
  rw [count, (parts_of_rep h).2.1, decodeFixed32_putFixed32 _ hn]

end

section

variable (h : Built b sequence records) (hlen : records.length < 2 ^ 32)
include h hlen

/-- **The bytes of a batch are the encoding of its message.** -/
theorem Built.rep_eq :
    b.rep = putFixed64 sequence ++
      (putFixed32 records.length ++ records.flatMap WriteBatchRecord.encode) := by
  induction h with
  | new => decide
  | clear => decide
  | setSequence n _ ih => exact congrArg (putFixed64 n ++ ·) (parts_of_rep (ih hlen)).2.1
  | put hb _ _ ih =>
    rw [length_append, length_singleton] at hlen ⊢
    have hrep := ih (by omega)
    rw [WriteBatch.put, rep_setCount_push hrep, count_of_rep hrep (by omega),
      Nat.mod_eq_of_lt hlen, flatMap_append, flatMap_singleton]
  | delete hb _ ih =>
    rw [length_append, length_singleton] at hlen ⊢
    have hrep := ih (by omega)
    rw [WriteBatch.delete, rep_setCount_push hrep, count_of_rep hrep (by omega),
      Nat.mod_eq_of_lt hlen, flatMap_append, flatMap_singleton]
  | append hb hsource ih ih' =>
    rw [length_append] at hlen ⊢
    have hrep := ih (by omega)
    have hrep' := ih' (by omega)
    rw [WriteBatch.append, rep_setCount_push hrep, count_of_rep hrep (by omega),
      count_of_rep hrep' (by omega), Nat.mod_eq_of_lt hlen, (parts_of_rep hrep').2.2,
      flatMap_append]

theorem Built.contents_eq :
    b.contents = WriteBatchMessage.encode ⟨⟨sequence, records.length⟩, records⟩ := by
  rw [WriteBatchMessage.encode, WriteBatchHeader.encode, append_assoc]
  exact h.rep_eq hlen

theorem Built.records_eq : b.records = .ok records := by
  have hrep := h.rep_eq hlen
  rw [records_eq_ok_iff, (parts_of_rep hrep).2.2, count_of_rep hrep hlen, Nat.mod_eq_of_lt hlen]
  exact ⟨parsesTo_encode h.encodable, rfl⟩

end

/-- **The two representations agree**: a batch that the operations build is the encoding of its
message, and the two decoders read the same from every input, unless the counter of the byte string
wraps around. -/
theorem representations_agree :
    (∀ b sequence records, Built b sequence records → records.length < 2 ^ 32 →
      b.records = .ok records ∧ b.count = records.length ∧
        b.contents = WriteBatchMessage.encode ⟨⟨sequence, records.length⟩, records⟩) ∧
    ∀ c records,
      (setContents c >>= WriteBatch.records = .ok records ∧ records.length < 2 ^ 32) ↔
        ∃ header, WriteBatchMessage.decodeFrom c = .ok (⟨header, records⟩, []) := by
  refine ⟨fun b sequence records h hlen => ?_, fun c records => ?_⟩
  · exact ⟨h.records_eq hlen, count_of_rep (h.rep_eq hlen) hlen, h.contents_eq hlen⟩
  · exact setContents_records_iff_decodeFrom

/-- A batch with a put that is appended to one with a delete. -/
theorem representations_agree_appended :
    Built ((new.delete [1]).append (new.put [2] [3])) 0 [.delete [1], .put [2] [3]] ∧
      ((new.delete [1]).append (new.put [2] [3])).records = .ok [.delete [1], .put [2] [3]] := by
  have hbuilt : Built ((new.delete [1]).append (new.put [2] [3])) 0 [.delete [1], .put [2] [3]] :=
    .append (.delete .new (by decide)) (.put .new (by decide) (by decide))
  exact ⟨hbuilt, (representations_agree.1 _ _ _ hbuilt (by decide)).1⟩

/-- A header with a count of zero before empty deletes. -/
def uncounted (n : ℕ) : Bytes :=
  putFixed64 0 ++ (putFixed32 0 ++ (List.replicate n (WriteBatchRecord.delete [])).flatMap
    WriteBatchRecord.encode)

theorem length_uncounted (n : ℕ) : 12 ≤ (uncounted n).length := by
  rw [uncounted, length_append, length_append, length_putFixed64, length_putFixed32]
  omega

/-- Deletes that bring the counter of `iterate` back to zero are accepted by it, and the decoder of
messages stops before them. -/
theorem not_decodersAgree_uncounted (hn : 0 < n) (hwrap : n % 2 ^ 32 = 0) :
    ¬ DecodersAgree (uncounted n) := by
  intro h
  have hrep : (⟨uncounted n, length_uncounted n⟩ : WriteBatch).rep =
      putFixed64 0 ++ (putFixed32 0 ++ _) := rfl
  have hcnt : decodeFixed32 ((uncounted n).drop 8) = 0 := count_of_rep hrep (by decide)
  have hbody : (uncounted n).drop 12 = _ := (parts_of_rep hrep).2.2
  have hencodable : ∀ r ∈ List.replicate n (WriteBatchRecord.delete []), r.Encodable := by
    intro r hr
    rw [eq_of_mem_replicate hr]
    exact Nat.two_pow_pos 32
  obtain ⟨header, hdec⟩ := (h (List.replicate n (.delete []))).mp <| by
    rw [setContents_records_iff, hbody, hcnt, length_replicate]
    exact ⟨length_uncounted n, parsesTo_encode hencodable, hwrap⟩
  obtain ⟨-, hnone, -⟩ := WriteBatchMessage.decodeFrom_eq_ok_iff.mp ⟨header, hdec⟩
  rw [hcnt, length_replicate] at hnone
  exact hn.ne' hnone

/-- 2^32 empty deletes behind a count of zero. -/
theorem not_decodersAgree_wrapped :
    12 ≤ (uncounted (2 ^ 32)).length ∧ ¬ DecodersAgree (uncounted (2 ^ 32)) :=
  ⟨length_uncounted _, not_decodersAgree_uncounted (Nat.two_pow_pos 32) (Nat.mod_self _)⟩

end WriteBatch
end PulsearcDb
