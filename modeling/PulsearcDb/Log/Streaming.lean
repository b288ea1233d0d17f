import PulsearcDb.Env
import PulsearcDb.Log.Writer

/-!
# The record log: appending to a file

The streaming side of `LogWriter` (`log/log.rs`): `add_record_pair_to` frames a record given in two
parts into a `WritableFile`. The writer and its file are one state, `LogFile`; the block offset is
advanced only when a fragment has been appended and flushed, so a failure leaves it behind the
bytes that are already in the file.

`addRecordPairTo_spec` says what a call does: the whole framed record and the new offset, or a
prefix of the record and an error. `CleanFault` are the failures that leave writer and file
consistent (`addRecordPairTo_of_cleanFault`). A record that is appended to a file in two parts takes
the bytes that `add_record` puts into the sink.
-/

namespace PulsearcDb

open Log List

/-- A `LogWriter` and the file it appends to. -/
structure LogFile where
  blockOffset : ℕ := 0
  file : WritableFile := {}
  deriving DecidableEq, Repr

namespace LogFile

/-- The log with the failure of its next operations set. -/
def withFault (s : LogFile) (fault : Option Fault) : LogFile :=
  ⟨s.blockOffset, s.file.flushed, s.file.buffer, fault⟩

/-- `append` on the file of the log. -/
def append (s : LogFile) (data : Bytes) : Outcome LogFile :=
  ((s.file.append data).1, { s with file := (s.file.append data).2 })

/-- `flush` on the file of the log. -/
def flush (s : LogFile) : Outcome LogFile := (s.file.flush.1, { s with file := s.file.flush.2 })

/-- Append unless there is nothing to append. -/
def appendNonempty (s : LogFile) (data : Bytes) : Outcome LogFile :=
  if data.isEmpty then (.ok (), s) else s.append data

/-- The part of `first ++ second` from `offset` on, `len` bytes of it, still in two parts. -/
def pairFragment (first second : Bytes) (offset len : ℕ) : Bytes × Bytes :=
  if offset < first.length then
    let firstLen := min (first.length - offset) len
    ((first.drop offset).take firstLen, second.take (len - firstLen))
  else ([], (second.drop (offset - first.length)).take len)

/-- A fragment that lies in two parts, and a flush. -/
def emitPhysicalRecordPairTo (s : LogFile) (kind : UInt8) (first second : Bytes) :
    Outcome LogFile :=
  let crc := Crc32c.extend (Crc32c.extend (Crc32c.value [kind]) first) second
  let length := first.length + second.length
  let header : LogRecordHeader := ⟨crc, length % 2 ^ 16, kind⟩
  (s.append header.encode).andThen fun s =>
  (s.appendNonempty first).andThen fun s =>
  (s.appendNonempty second).andThen fun s =>
  s.flush.andThen fun s =>
  (.ok (), { s with blockOffset := s.blockOffset + (headerSize + length) })

/-- Zero-fill a block that has no room for a header. -/
def startBlockTo (s : LogFile) : Outcome LogFile :=
  if blockSize - s.blockOffset < headerSize then
    (s.appendNonempty (List.replicate (blockSize - s.blockOffset) 0)).andThen fun s =>
      (.ok (), { s with blockOffset := 0 })
  else (.ok (), s)

/-! ### Single steps -/

variable {s s' : LogFile} {first second : Bytes} {offset left : ℕ}

theorem append_pairFragment {len : ℕ} :
    (pairFragment first second offset len).1 ++ (pairFragment first second offset len).2 =
      ((first ++ second).drop offset).take len := by
  unfold pairFragment
  split_ifs with hoff
  · have hlen : len - min (first.length - offset) len = len - (first.length - offset) := by omega
    rw [drop_append_of_le_length hoff.le, take_append, length_drop]
    simp only [hlen]
    rw [take_eq_take_iff.mpr]
    rw [length_drop]
    omega
  · rw [drop_append, drop_eq_nil_of_le (not_lt.mp hoff), nil_append, nil_append]

/-- The bytes that a step leaves in the file of the log. -/
def Wrote (bytes : Bytes) (s : LogFile) (o : Outcome LogFile) : Prop :=
  WritableFile.Wrote bytes s.file (o.1, o.2.file)

theorem Wrote.andThen {a b : Bytes} {o : Outcome LogFile} {g : LogFile → Outcome LogFile}
    (ho : Wrote a s o) (hg : ∀ s', Wrote b s' (g s')) :
    Wrote (a ++ b) s (o.andThen g) := by
  rcases o with ⟨e | _, s'⟩
  · exact WritableFile.Wrote.of_error b ho
  · exact WritableFile.Wrote.trans ho (hg s')

theorem wrote_ok (s s' : LogFile) (h : s'.file = s.file) : Wrote [] s (.ok (), s') := by
  refine ⟨?_, fun _ => ?_, by simp, fun hf => ⟨rfl, ?_⟩⟩ <;> simp [h]
  exact hf

variable (s)

theorem wrote_append (data : Bytes) : Wrote data s (s.append data) := s.file.wrote_append data

theorem wrote_flush : Wrote [] s s.flush := s.file.wrote_flushWith _

theorem wrote_appendNonempty (data : Bytes) : Wrote data s (s.appendNonempty data) := by
  unfold appendNonempty
  split_ifs with hempty
  · rw [List.isEmpty_iff.mp hempty]
    exact wrote_ok s s rfl
  · exact s.wrote_append data

theorem wrote_emitPhysicalRecordPairTo (kind : UInt8) (first second : Bytes) :
    Wrote (physicalRecord kind (first ++ second)) s
      (s.emitPhysicalRecordPairTo kind first second) := by
  have h := (s.wrote_append (LogRecordHeader.encode
    ⟨recordCrc kind (first ++ second), (first ++ second).length % 2 ^ 16, kind⟩)).andThen
      fun s₁ => (s₁.wrote_appendNonempty first).andThen
      fun s₂ => (s₂.wrote_appendNonempty second).andThen
      fun s₃ => s₃.wrote_flush.andThen
      fun s₄ => wrote_ok s₄ { s₄ with blockOffset :=
        s₄.blockOffset + (headerSize + (first ++ second).length) } rfl
  simpa only [emitPhysicalRecordPairTo, physicalRecord, recordCrc, Crc32c.extend_append,
    length_append, append_nil] using h

theorem startBlockTo_eq :
    s.startBlockTo = (s.appendNonempty (padding s.blockOffset)).andThen fun t =>
      (.ok (), { t with blockOffset := startOffset s.blockOffset }) := by
  unfold startBlockTo padding startOffset
  split_ifs <;> rfl

theorem wrote_startBlockTo : Wrote (padding s.blockOffset) s s.startBlockTo := by
  have h := (s.wrote_appendNonempty (padding s.blockOffset)).andThen fun t =>
    wrote_ok t { t with blockOffset := startOffset s.blockOffset } rfl
  rwa [append_nil, ← startBlockTo_eq] at h

@[simp] theorem blockOffset_append (data : Bytes) :
    (s.append data).2.blockOffset = s.blockOffset := rfl

@[simp] theorem blockOffset_appendNonempty (data : Bytes) :
    (s.appendNonempty data).2.blockOffset = s.blockOffset := by
  unfold appendNonempty
  split_ifs <;> rfl

variable {s}

private theorem buffer_of_flush_ok (h : s.flush = (.ok (), s')) :
    s'.blockOffset = s.blockOffset ∧ s'.file.buffer = [] := by
  obtain ⟨offset, flushed, buffer, _ | ⟨_ | after, written⟩⟩ := s <;>
    simp only [flush, WritableFile.flush, WritableFile.flushWith, Prod.mk.injEq, reduceCtorEq,
      false_and, true_and] at h
  all_goals rw [← h]; exact ⟨rfl, rfl⟩

/-- The offset moves over a fragment when the fragment has reached the file. -/
theorem blockOffset_of_emit_ok {kind : UInt8}
    (h : s.emitPhysicalRecordPairTo kind first second = (.ok (), s')) :
    s'.blockOffset = s.blockOffset + (headerSize + (first.length + second.length)) ∧
      s'.file.buffer = [] := by
  simp only [emitPhysicalRecordPairTo, Outcome.andThen_eq_ok] at h
  obtain ⟨s₁, h₁, s₂, h₂, s₃, h₃, s₄, h₄, h⟩ := h
  obtain ⟨hoff, hbuf⟩ := buffer_of_flush_ok h₄
  have e₁ := congrArg (fun o : Outcome LogFile => o.2.blockOffset) h₁
  have e₂ := congrArg (fun o : Outcome LogFile => o.2.blockOffset) h₂
  have e₃ := congrArg (fun o : Outcome LogFile => o.2.blockOffset) h₃
  simp only [blockOffset_append, blockOffset_appendNonempty] at e₁ e₂ e₃
  simp only [Prod.mk.injEq, true_and] at h
  rw [← h]
  exact ⟨by simp only [hoff, ← e₃, ← e₂, ← e₁], hbuf⟩

theorem blockOffset_of_startBlockTo_ok (h : s.startBlockTo = (.ok (), s')) :
    s'.blockOffset = startOffset s.blockOffset := by
  rw [startBlockTo_eq, Outcome.andThen_eq_ok] at h
  obtain ⟨t, -, ht⟩ := h
  rw [← (Prod.mk.inj ht).2]

/-! ### The loop over the fragments -/

private theorem length_append_pairFragment {len : ℕ}
    (h : offset + left = first.length + second.length) (hlen : len ≤ left) :
    (pairFragment first second offset len).1.length +
      (pairFragment first second offset len).2.length = len := by
  rw [← length_append, append_pairFragment, length_take, length_drop, length_append]
  omega

private theorem length_drop_append (h : offset + left = first.length + second.length) :
    ((first ++ second).drop offset).length = left := by
  rw [length_drop, length_append]
  omega

/-- The loop of `add_record_pair_to`; `offset` bytes have been appended and `left` are missing. -/
def addRecordPairLoop (s : LogFile) (first second : Bytes) (offset left : ℕ) (begin : Bool)
    (h : offset + left = first.length + second.length) : Outcome LogFile :=
  match hstart : s.startBlockTo with
  | (.error e, s') => (.error e, s')
  | (.ok _, s') =>
    let fragmentLen := min left (blockSize - s'.blockOffset - headerSize)
    let fragment := pairFragment first second offset fragmentLen
    match hemit : s'.emitPhysicalRecordPairTo (fragmentKind begin (left = fragmentLen))
        fragment.1 fragment.2 with
    | (.error e, s'') => (.error e, s'')
    | (.ok _, s'') =>
      if left = fragmentLen then (.ok (), s'')
      else
        s''.addRecordPairLoop first second (offset + fragmentLen) (left - fragmentLen) false
          (by omega)
termination_by loopMeasure s.blockOffset ((first ++ second).drop offset)
decreasing_by
  have hleft := length_drop_append h
  have hroom : fragmentLen = min left (room s.blockOffset) := by
    simp only [fragmentLen, room, blockOffset_of_startBlockTo_ok hstart]
  have hfull : s''.blockOffset = blockSize := by
    rw [(blockOffset_of_emit_ok hemit).1, length_append_pairFragment h (by omega),
      blockOffset_of_startBlockTo_ok hstart, show fragmentLen = room s.blockOffset by omega,
      startOffset_add_room]
  change loopMeasure s''.blockOffset ((first ++ second).drop (offset + fragmentLen)) < _
  rw [hfull, ← drop_drop, show fragmentLen = room s.blockOffset by omega]
  exact loopMeasure_lt (by omega)

/-- `add_record_pair_to`; `add_record_to` is the case of an empty second part. -/
def addRecordPairTo (s : LogFile) (first second : Bytes) : Outcome LogFile :=
  s.addRecordPairLoop first second 0 (first.length + second.length) true (by omega)

private theorem wrote_fragment (begin : Bool) (h : offset + left = first.length + second.length)
    (hstart : s.startBlockTo = (.ok (), s')) {len : ℕ}
    (hlen : len = min left (blockSize - s'.blockOffset - headerSize)) :
    Wrote (padding s.blockOffset ++ physicalRecord
        (fragmentKind begin (((first ++ second).drop offset).length ≤ room s.blockOffset))
        (((first ++ second).drop offset).take (room s.blockOffset))) s
      (s'.emitPhysicalRecordPairTo (fragmentKind begin (left = len))
        (pairFragment first second offset len).1 (pairFragment first second offset len).2) := by
  have hleft := length_drop_append h
  have hroom : len = min left (room s.blockOffset) := by
    rw [hlen, room, blockOffset_of_startBlockTo_ok hstart]
  have hlast : decide (left ≤ room s.blockOffset) = decide (left = len) :=
    decide_eq_decide.mpr (by omega)
  have htake : ((first ++ second).drop offset).take (room s.blockOffset) =
      ((first ++ second).drop offset).take len :=
    take_eq_take_iff.mpr (by omega)
  have hwrote := s.wrote_startBlockTo
  rw [hstart] at hwrote
  rw [hleft, hlast, htake, ← append_pairFragment]
  exact WritableFile.Wrote.trans hwrote (wrote_emitPhysicalRecordPairTo _ _ _ _)

private theorem addRecordPairLoop_spec (s : LogFile) (first second : Bytes) (offset left : ℕ)
    (begin : Bool) (h : offset + left = first.length + second.length) :
    Wrote (framed begin s.blockOffset ((first ++ second).drop offset)) s
        (s.addRecordPairLoop first second offset left begin h) ∧
      ∀ s', s.addRecordPairLoop first second offset left begin h = (.ok (), s') →
        s'.blockOffset = endOffset s.blockOffset ((first ++ second).drop offset) ∧
          s'.file.buffer = [] := by
  fun_induction addRecordPairLoop s first second offset left begin h with
  | case1 s offset left begin h e s' hstart =>
    have hwrote := s.wrote_startBlockTo
    rw [hstart] at hwrote
    rw [framed_eq]
    exact ⟨WritableFile.Wrote.of_error _ hwrote, by simp⟩
  | case2 s offset left begin h u s' hstart fragmentLen fragment e s'' hemit =>
    have hwrote := wrote_fragment begin h hstart rfl
    rw [show s'.emitPhysicalRecordPairTo _ _ _ = (.error e, s'') from hemit] at hwrote
    rw [framed_eq, ← append_assoc]
    exact ⟨WritableFile.Wrote.of_error _ hwrote, by simp⟩
  | case3 s offset left begin h u s' hstart fragmentLen fragment v s'' hemit hlast =>
    have hwrote := wrote_fragment begin h hstart rfl
    obtain ⟨hoff, hbuf⟩ := blockOffset_of_emit_ok hemit
    rw [show s'.emitPhysicalRecordPairTo _ _ _ = (.ok (), s'') from hemit] at hwrote
    have hleft := length_drop_append h
    have hle : left ≤ room s.blockOffset := by
      rw [room, ← blockOffset_of_startBlockTo_ok hstart]
      omega
    constructor
    · rwa [framed_eq, if_pos (by omega), append_nil]
    · rintro t ht
      obtain rfl : s'' = t := (Prod.mk.inj ht).2
      rw [endOffset_of_le (by omega), hleft, hoff, length_append_pairFragment h (by omega),
        blockOffset_of_startBlockTo_ok hstart, ← hlast]
      exact ⟨rfl, hbuf⟩
  | case4 s offset left begin h u s' hstart fragmentLen fragment v s'' hemit hmore ih =>
    have hwrote := wrote_fragment begin h hstart rfl
    obtain ⟨hoff, -⟩ := blockOffset_of_emit_ok hemit
    rw [show s'.emitPhysicalRecordPairTo _ _ _ = (.ok (), s'') from hemit] at hwrote
    have hleft := length_drop_append h
    have hroom : fragmentLen = min left (room s.blockOffset) := by
      simp only [fragmentLen, room, blockOffset_of_startBlockTo_ok hstart]
    have hlen : fragmentLen = room s.blockOffset := by omega
    have hfull : s''.blockOffset = blockSize := by
      rw [hoff, length_append_pairFragment h (by omega), blockOffset_of_startBlockTo_ok hstart,
        hlen, startOffset_add_room]
    have hdrop : (first ++ second).drop (offset + fragmentLen) =
        ((first ++ second).drop offset).drop (room s.blockOffset) := by
      rw [drop_drop, hlen]
    rw [hfull, hdrop] at ih
    rw [endOffset_of_lt (by omega)]
    refine ⟨?_, ih.2⟩
    rw [framed_eq, if_neg (by omega), ← append_assoc]
    exact WritableFile.Wrote.trans hwrote ih.1

/-- **What a call of `add_record_pair_to` does.** -/
theorem addRecordPairTo_spec (s : LogFile) (first second : Bytes) :
    Wrote (framed true s.blockOffset (first ++ second)) s (s.addRecordPairTo first second) ∧
      ∀ s', s.addRecordPairTo first second = (.ok (), s') →
        s'.blockOffset = endOffset s.blockOffset (first ++ second) ∧ s'.file.buffer = [] :=
  s.addRecordPairLoop_spec first second 0 _ true _

/-- The writer and its file after a record has been appended. -/
def appended (s : LogFile) (data : Bytes) : LogFile where
  blockOffset := endOffset s.blockOffset data
  file := { flushed := s.file.accepted ++ framed true s.blockOffset data }

theorem accepted_appended (s : LogFile) (data : Bytes) :
    (s.appended data).file.accepted = s.file.accepted ++ framed true s.blockOffset data :=
  append_nil _

theorem addRecordPairTo_eq_appended (h : s.addRecordPairTo first second = (.ok (), s')) :
    s'.withFault none = s.appended (first ++ second) := by
  obtain ⟨hwrote, hok⟩ := s.addRecordPairTo_spec first second
  obtain ⟨hoff, hbuf⟩ := hok s' h
  have hb := hwrote.ok (by rw [h])
  rw [h] at hb
  obtain ⟨offset, flushed, buffer, fault⟩ := s'
  simp only at hoff hbuf
  simp only [WritableFile.accepted, hbuf, append_nil] at hb
  rw [hoff, hbuf, hb]
  rfl

@[simp] theorem appended_withFault (s : LogFile) (fault : Option Fault) (data : Bytes) :
    (s.withFault fault).appended data = s.appended data := rfl

theorem addRecordPairTo_isOk (first second : Bytes) (h : s.file.fault = none) :
    ∃ s', s.addRecordPairTo first second = (.ok (), s') := by
  refine ⟨(s.addRecordPairTo first second).2, Prod.ext ?_ rfl⟩
  exact ((s.addRecordPairTo_spec first second).1.noFault h).1

/-! ### Failures that leave the log consistent -/

/-- A failure that leaves no byte of the record: of the first operation, or of the one after the
padding, before any of its bytes is written. -/
def CleanFault (offset : ℕ) (fault : Fault) : Prop :=
  fault.written = 0 ∧ (fault.after = 0 ∨ fault.after = 1 ∧ padding offset ≠ [])

instance (offset : ℕ) (fault : Fault) : Decidable (CleanFault offset fault) :=
  inferInstanceAs (Decidable (_ ∧ _))

private theorem append_of_cleanFault (data : Bytes) (hfault : s.file.fault = some ⟨0, 0⟩) :
    s.append data = (.error (Status.ioError "writable append"),
      ⟨s.blockOffset, ⟨s.file.flushed, s.file.buffer, none⟩⟩) := by
  simp [append, WritableFile.append, hfault]

private theorem emit_of_cleanFault (kind : UInt8) (first second : Bytes)
    (hfault : s.file.fault = some ⟨0, 0⟩) :
    s.emitPhysicalRecordPairTo kind first second = (.error (Status.ioError "writable append"),
      ⟨s.blockOffset, ⟨s.file.flushed, s.file.buffer, none⟩⟩) := by
  rw [emitPhysicalRecordPairTo, append_of_cleanFault _ hfault, Outcome.andThen_error]

private theorem loop_of_start_error {begin : Bool}
    {h : offset + left = first.length + second.length} {e : Status}
    (hstart : s.startBlockTo = (.error e, s')) :
    s.addRecordPairLoop first second offset left begin h = (.error e, s') := by
  rw [addRecordPairLoop]
  split <;> simp_all

private theorem loop_of_emit_error {s'' : LogFile} {begin : Bool}
    {h : offset + left = first.length + second.length} {e : Status}
    (hstart : s.startBlockTo = (.ok (), s'))
    (hemit : ∀ kind first second, s'.emitPhysicalRecordPairTo kind first second = (.error e, s'')) :
    s.addRecordPairLoop first second offset left begin h = (.error e, s'') := by
  rw [addRecordPairLoop]
  split
  · simp_all
  · rename_i hok
    obtain rfl : s' = _ := by simpa using hstart.symm.trans hok
    simp only
    split
    · rename_i herr
      rw [hemit] at herr
      exact herr.symm
    · rename_i hok'
      rw [hemit] at hok'
      simp at hok'

/-- **A clean failure** leaves the flushed bytes alone and the writer at its offset, or the block
padded and the writer at the start of the next one, whatever the record is. -/
theorem addRecordPairTo_of_cleanFault {fault : Fault} (hfault : s.file.fault = some fault)
    (hclean : CleanFault s.blockOffset fault) :
    ∃ e s', (∀ first second, s.addRecordPairTo first second = (.error e, s')) ∧
      s'.file.flushed = s.file.flushed ∧
      (s'.blockOffset = s.blockOffset ∧ s'.file.buffer = s.file.buffer ∨
        s'.blockOffset = startOffset s.blockOffset ∧
          s'.file.buffer = s.file.buffer ++ padding s.blockOffset) := by
  obtain ⟨after, written⟩ := fault
  obtain ⟨rfl, rfl | ⟨rfl, hpad⟩⟩ : written = 0 ∧ _ := hclean
  · by_cases hpad : padding s.blockOffset = []
    · have hstart : s.startBlockTo =
          (.ok (), { s with blockOffset := startOffset s.blockOffset }) := by
        rw [startBlockTo_eq, hpad]
        rfl
      refine ⟨_, _, fun _ _ => loop_of_emit_error hstart fun _ _ _ =>
        emit_of_cleanFault _ _ _ hfault, rfl, .inr ⟨rfl, by rw [hpad, append_nil]⟩⟩
    · have hstart : s.startBlockTo = (.error (Status.ioError "writable append"),
          ⟨s.blockOffset, ⟨s.file.flushed, s.file.buffer, none⟩⟩) := by
        rw [startBlockTo_eq, appendNonempty, if_neg (by simpa using hpad),
          append_of_cleanFault _ hfault, Outcome.andThen_error]
      exact ⟨_, _, fun _ _ => loop_of_start_error hstart, rfl, .inl ⟨rfl, rfl⟩⟩
  · have hstart : s.startBlockTo = (.ok (), ⟨startOffset s.blockOffset,
        ⟨s.file.flushed, s.file.buffer ++ padding s.blockOffset, some ⟨0, 0⟩⟩⟩) := by
      rw [startBlockTo_eq, appendNonempty, if_neg (by simpa using hpad)]
      simp [append, WritableFile.append, hfault]
    exact ⟨_, _, fun _ _ => loop_of_emit_error hstart fun _ _ _ => emit_of_cleanFault _ _ _ rfl,
      rfl, .inr ⟨rfl, rfl⟩⟩

/-! ### Calls under a failure -/

/-- `add_record_pair_to` under a failure of its own. -/
def addRecordUnder (m : LogFile) (fault : Option Fault) (first second : Bytes) : Outcome LogFile :=
  let o := (m.withFault fault).addRecordPairTo first second
  (o.1, o.2.withFault none)

/-- `sync` of the file under a failure of its own. -/
def syncUnder (m : LogFile) (fault : Option Fault) : Outcome LogFile :=
  let o := (m.withFault fault).file.sync
  (o.1, LogFile.withFault ⟨m.blockOffset, o.2⟩ none)

section Under

variable {m m' : LogFile} {fault : Option Fault} {first second : Bytes}

theorem addRecordUnder_ok (h : m.addRecordUnder fault first second = (.ok (), m')) :
    m' = m.appended (first ++ second) := by
  obtain ⟨hok, rfl⟩ := Prod.mk.inj h
  have happ := @addRecordPairTo_eq_appended (m.withFault fault) _ first second (Prod.ext hok rfl)
  rwa [appended_withFault] at happ

theorem addRecordUnder_none (m : LogFile) (first second : Bytes) :
    m.addRecordUnder none first second = (.ok (), m.appended (first ++ second)) := by
  obtain ⟨s', hs'⟩ := addRecordPairTo_isOk (s := m.withFault none) first second rfl
  have h : m.addRecordUnder none first second =
      (.ok (), (m.addRecordUnder none first second).2) := by
    refine Prod.ext ?_ rfl
    rw [addRecordUnder, hs']
  rw [h, addRecordUnder_ok h]

theorem addRecordUnder_of_cleanFault {fault : Fault} (hclean : CleanFault m.blockOffset fault) :
    ∃ e m', (∀ first second, m.addRecordUnder (some fault) first second = (.error e, m')) ∧
      m'.file.flushed = m.file.flushed ∧
      (m'.blockOffset = m.blockOffset ∧ m'.file.buffer = m.file.buffer ∨
        m'.blockOffset = startOffset m.blockOffset ∧
          m'.file.buffer = m.file.buffer ++ padding m.blockOffset) := by
  obtain ⟨e, s', hs', hflushed, hrest⟩ :=
    addRecordPairTo_of_cleanFault (s := m.withFault (some fault)) rfl hclean
  refine ⟨e, s'.withFault none, fun first second => ?_, hflushed, hrest⟩
  rw [addRecordUnder, hs']

/-- An append takes back no flushed byte. -/
theorem flushed_addRecordUnder (m : LogFile) (fault : Option Fault) (first second : Bytes) :
    m.file.flushed <+: (m.addRecordUnder fault first second).2.file.flushed :=
  ((m.withFault fault).addRecordPairTo_spec first second).1.flushed

/-- Syncing a log whose bytes have all been flushed changes nothing, also when it fails. -/
theorem syncUnder_appended (m : LogFile) (data : Bytes) (fault : Option Fault) :
    ((m.appended data).syncUnder fault).2 = m.appended data := by
  rcases fault with _ | ⟨_ | after, written⟩ <;>
    simp [syncUnder, WritableFile.sync, WritableFile.flushWith, appended, withFault,
      WritableFile.accepted]

theorem syncUnder_none (m : LogFile) : (m.syncUnder none).1 = .ok () := rfl

theorem syncUnder_of_flushed (h : m.file.buffer = []) :
    (m.syncUnder none).2.blockOffset = m.blockOffset ∧
      (m.syncUnder none).2.file.accepted = m.file.accepted ∧
      (m.syncUnder none).2.file.buffer = [] := by
  simp [syncUnder, WritableFile.sync, WritableFile.flushWith, withFault, WritableFile.accepted, h]

end Under

end LogFile

/-! ### The two ways to append a record -/

namespace LogWriter

/-- The writers after successful appends, to the sink or to any file. -/
inductive Reached : LogWriter → Prop
  | new : Reached {}
  | addRecord {w : LogWriter} (data : Bytes) : Reached w → Reached (w.addRecord data)
  | addRecordPairTo {w : LogWriter} {file : WritableFile} {s' : LogFile} {first second : Bytes} :
    Reached w → LogFile.addRecordPairTo ⟨w.blockOffset, file⟩ first second = (.ok (), s') →
      Reached { w with blockOffset := s'.blockOffset }

variable {w : LogWriter}

/-- The offset of a writer is in its block. -/
theorem Reached.blockOffset_le (hw : w.Reached) : w.blockOffset ≤ blockSize := by
  cases hw with
  | new => exact Nat.zero_le _
  | addRecord data hw =>
    rw [addRecord_eq]
    exact endOffset_le _ _
  | addRecordPairTo hw ha =>
    obtain ⟨-, hok⟩ := LogFile.addRecordPairTo_spec ⟨_, _⟩ _ _
    rw [(hok _ ha).1]
    exact endOffset_le _ _

/-- **A record in two parts is appended to a file as the whole record to the sink**: the same bytes,
and the same offset behind them. -/
theorem Reached.addRecordPairTo_eq_addRecord (hw : w.Reached) (file : WritableFile)
    (first second : Bytes) :
    w.blockOffset ≤ blockSize ∧
    (file.fault = none → ∃ s',
      LogFile.addRecordPairTo ⟨w.blockOffset, file⟩ first second = (.ok (), s')) ∧
    ∀ s', LogFile.addRecordPairTo ⟨w.blockOffset, file⟩ first second = (.ok (), s') →
      s'.blockOffset ≤ blockSize ∧ ∃ bytes, s'.file.accepted = file.accepted ++ bytes ∧
        w.addRecord (first ++ second) = ⟨w.sink ++ bytes, s'.blockOffset⟩ := by
  refine ⟨hw.blockOffset_le, fun hfault => ?_, fun s' ha => ?_⟩
  · exact @LogFile.addRecordPairTo_isOk ⟨w.blockOffset, file⟩ first second hfault
  obtain ⟨hwrote, hok⟩ := LogFile.addRecordPairTo_spec ⟨w.blockOffset, file⟩ first second
  have hoffset := (hok s' ha).1
  have hb := hwrote.ok (by rw [ha])
  rw [ha] at hb
  refine ⟨hoffset ▸ endOffset_le _ _, _, hb, ?_⟩
  rw [addRecord_eq, hoffset]

/-- A record behind another one, with both parts in it. -/
theorem addRecordPairTo_eq_addRecord_second :
    (LogWriter.addRecord {} [1]).Reached ∧ ∃ s',
      LogFile.addRecordPairTo ⟨(LogWriter.addRecord {} [1]).blockOffset, {}⟩ [2] [3] =
        (.ok (), s') ∧
      ((LogWriter.addRecord {} [1]).addRecord [2, 3]).blockOffset = s'.blockOffset := by
  have hw : (LogWriter.addRecord {} [1]).Reached := .addRecord [1] .new
  obtain ⟨-, htotal, hsame⟩ := hw.addRecordPairTo_eq_addRecord {} [2] [3]
  obtain ⟨s', hs'⟩ := htotal rfl
  obtain ⟨-, bytes, -, hrec⟩ := hsame s' hs'
  exact ⟨hw, s', hs', congrArg blockOffset hrec⟩

end LogWriter
end PulsearcDb
