import PulsearcDb.Log.RoundTrip
import PulsearcDb.Log.Streaming
import Mathlib.Data.List.Induction

/-!
# The record log: replaying a file

The recovery paths read a log file with `LogSequentialReader` and run a body on each record. The
file reader finds the same records as the in-memory reader (`LogSequentialReader.Follows`), and what
the in-memory reader does depends only on its position. So the loop is the function `resume` of a
block offset and the bytes that follow, and the replay of a file is `resume` at its start.

* `resume_framed` : a framed record is read back whole and the body runs on it.
* `resume_padding` : padding alone is skipped.
* `resume_of_short` : bytes without a complete header end the log, without an error.
* `resume_truncated` : a record that is cut behind its first header is an error.

The bytes of a writer, cut anywhere, are read up to the record that is cut
(`LogReader.resume_take`).

A writer and its file hold a list of records, `LogFile.Holds`, when the replay of the file runs the
body on these records and goes on where the writer stands. An append that succeeds adds its record,
and a clean failure adds nothing.
-/

namespace PulsearcDb

open Log List

/-! ### Positions determine the reading -/

namespace LogReader

/-- Two readers at the same block offset with the same bytes before them. -/
def SamePosition (r s : LogReader) : Prop := ∃ offset rest, r.At offset rest ∧ s.At offset rest

variable {r : LogReader}

theorem SamePosition.advance {s : LogReader} (h : r.SamePosition s) (n : ℕ) :
    SamePosition { r with cursor := r.cursor + n } { s with cursor := s.cursor + n } := by
  obtain ⟨offset, rest, hr, hs⟩ := h
  refine ⟨offset + n, rest.drop n, ⟨?_, ?_⟩, ⟨?_, ?_⟩⟩
  · rw [Nat.add_mod, hr.offset, ← Nat.add_mod]
  · rw [← drop_drop, hr.rest]
  · rw [Nat.add_mod, hs.offset, ← Nat.add_mod]
  · rw [← drop_drop, hs.rest]

private theorem SamePosition.facts {s : LogReader} (h : r.SamePosition s) :
    s.cursor % blockSize = r.cursor % blockSize ∧
      s.bytes.drop s.cursor = r.bytes.drop r.cursor ∧
      (s.bytes.length < s.cursor + headerSize ↔ r.bytes.length < r.cursor + headerSize) := by
  obtain ⟨offset, rest, hr, hs⟩ := h
  have hr' := hr.length
  have hs' := hs.length
  refine ⟨hs.offset.trans hr.offset.symm, hs.rest.trans hr.rest.symm, ?_⟩
  simp only [headerSize, LogRecordHeader.size]
  omega

theorem simulates_samePosition : source.Simulates source SamePosition := by
  intro r s h
  change (readPhysical r).1 = (readPhysical s).1 ∧ ∀ fragment,
    (readPhysical r).1 = .ok (some fragment) → SamePosition (readPhysical r).2 (readPhysical s).2
  fun_induction readPhysical r generalizing s with
    (obtain ⟨hmod, hrest, hlen⟩ := h.facts
     rw [readPhysical.eq_def s])
  | case1 r off hskip ih =>
    simp only [hmod, if_pos (show blockSize - r.cursor % blockSize < headerSize from hskip)]
    exact ih _ (h.advance _)
  | case2 r off ht hend =>
    simp only [hmod, hlen,
      if_neg (show ¬ blockSize - r.cursor % blockSize < headerSize from ht), if_pos hend]
    simp
  | case3 r off ht hb e hc =>
    simp only [hmod, hlen, hrest,
      if_neg (show ¬ blockSize - r.cursor % blockSize < headerSize from ht), if_neg hb,
      show checkPhysical (r.cursor % blockSize) _ = _ from hc]
    simp
  | case4 r off ht hb kind payload hc r₁ hzero ih =>
    simp only [hmod, hlen, hrest,
      if_neg (show ¬ blockSize - r.cursor % blockSize < headerSize from ht), if_neg hb,
      show checkPhysical (r.cursor % blockSize) _ = _ from hc, if_pos hzero]
    exact ih _ (h.advance _)
  | case5 r off ht hb kind payload hc r₁ hzero =>
    simp only [hmod, hlen, hrest,
      if_neg (show ¬ blockSize - r.cursor % blockSize < headerSize from ht), if_neg hb,
      show checkPhysical (r.cursor % blockSize) _ = _ from hc, if_neg hzero]
    exact ⟨trivial, fun _ _ => h.advance _⟩

/-- The reader stands where a header would begin, and there is none. -/
structure Ended (r : LogReader) : Prop where
  room : ¬ blockSize - r.cursor % blockSize < headerSize
  short : r.bytes.length < r.cursor + headerSize

theorem Ended.readPhysical_eq (h : r.Ended) : r.readPhysical = (.ok none, r) := by
  rw [readPhysical]
  simp only [if_neg h.room, if_pos h.short]

theorem ended_of_none (h : r.readPhysical.1 = .ok none) : r.readPhysical.2.Ended := by
  fun_induction readPhysical r with
  | case1 r off hskip ih => exact ih h
  | case2 r off ht hend => exact ⟨ht, hend⟩
  | case3 => cases h
  | case4 r off ht hb kind payload hc r₁ hzero ih => exact ih h
  | case5 => cases h

end LogReader

/-! ### The file reader -/

/-- The checks look at the current block only. -/
theorem checkPhysical_append {offset : ℕ} {rest : Bytes} (tail : Bytes)
    (hblk : rest.length = blockSize - offset) (hhead : headerSize ≤ rest.length) :
    checkPhysical offset (rest ++ tail) = checkPhysical offset rest := by
  rw [checkPhysical, checkPhysical, take_append_of_le_length hhead]
  rcases LogRecordHeader.decodeFrom (rest.take headerSize) with e | ⟨header, input⟩
  · rfl
  · simp only [ok_bind]
    by_cases hpast : blockSize - offset - headerSize < header.length
    · simp only [if_pos hpast]
    · have hcut : ¬ rest.length < headerSize + header.length := by omega
      have hcut' : ¬ (rest ++ tail).length < headerSize + header.length := by
        rw [length_append]
        omega
      have hpayload : ((rest ++ tail).drop headerSize).take header.length =
          (rest.drop headerSize).take header.length := by
        rw [drop_append_of_le_length hhead, take_append_of_le_length]
        rw [length_drop]
        omega
      simp only [if_neg hpast, if_neg hcut, if_neg hcut', hpayload]

theorem length_le_of_checkPhysical {offset : ℕ} {rest payload : Bytes} {kind : UInt8}
    (h : checkPhysical offset rest = .ok (kind, payload)) :
    headerSize + payload.length ≤ rest.length := by
  simp only [checkPhysical, bind_eq_ok, Prod.exists] at h
  obtain ⟨header, input, -, h⟩ := h
  split_ifs at h with hpast hcut hcrc
  obtain ⟨-, rfl⟩ : _ ∧ (rest.drop headerSize).take header.length = payload := by
    simpa [pure, Except.pure] using h
  rw [length_take]
  omega

namespace LogSequentialReader

/-- The file reader stands where the in-memory reader `m` does: it holds the block of the cursor,
which starts at `base`, in full unless the file ends in it; or it has no block yet. -/
structure Tracks (r : LogSequentialReader) (m : LogReader) (base : ℕ) : Prop where
  eof : r.eof = false
  aligned : base % blockSize = 0
  bytes : m.bytes.drop base = r.block ++ r.file
  cursor : m.cursor = base + r.blockOffset
  offset : r.blockOffset ≤ r.block.length
  block : r.block.length = blockSize ∨
    r.block.length < blockSize ∧ (r.file = [] ∨ r.block = [])

/-- The file reader has come to the end of the file. -/
structure Ended (r : LogSequentialReader) : Prop where
  eof : r.eof = true
  rest : r.block.length ≤ r.blockOffset ∨
    r.block.length - r.blockOffset < headerSize ∧ r.block.length < blockSize

/-- A reader with a block that is not used up. -/
structure Loaded (r : LogSequentialReader) (m : LogReader) (base : ℕ) : Prop
    extends Tracks r m base where
  lt : r.blockOffset < r.block.length

variable {r : LogSequentialReader} {m : LogReader} {base : ℕ}

theorem Tracks.at (h : r.Tracks m base) :
    m.At r.blockOffset (r.block.drop r.blockOffset ++ r.file) := by
  refine ⟨?_, ?_⟩
  · rw [h.cursor, Nat.add_mod, h.aligned, Nat.zero_add, Nat.mod_mod]
  · rw [h.cursor, ← drop_drop, h.bytes, drop_append_of_le_length h.offset]

theorem Tracks.offset_le (h : r.Tracks m base) : r.blockOffset ≤ blockSize := by
  have := h.offset
  have := h.block
  omega

theorem Loaded.file (h : r.Loaded m base) : r.block.length = blockSize ∨
    r.block.length < blockSize ∧ r.file = [] := by
  rcases h.block with hfull | ⟨hlt, hnil | hnil⟩
  · exact .inl hfull
  · exact .inr ⟨hlt, hnil⟩
  · exact absurd h.lt (by simp [hnil])

/-- Loading a block keeps the position, unless the file has ended. -/
theorem Tracks.loadBlock (h : r.Tracks m base) :
    (r.block.length ≤ r.blockOffset ∧ r.loadBlock.eof = true ∧
        r.block.drop r.blockOffset ++ r.file = []) ∨
      ∃ base', r.loadBlock.Loaded m base' := by
  by_cases hused : r.block.length ≤ r.blockOffset
  · have hrest := h.at.rest
    rw [drop_eq_nil_of_le hused, nil_append] at hrest
    rw [LogSequentialReader.loadBlock, if_pos hused, fillBlock, if_neg (by simp [h.eof]),
      drop_eq_nil_of_le hused, nil_append]
    by_cases hfile : r.file = []
    · exact .inl ⟨hused, by simp [hfile], hfile⟩
    · have hlen : 0 < r.file.length := length_pos_iff.mpr hfile
      have hoff := h.offset
      refine .inr ⟨m.cursor, ⟨?_, ?_, ?_, rfl, Nat.zero_le _, ?_⟩, ?_⟩
      · simpa [blockSize] using hfile
      · rw [h.at.offset]
        rcases h.block with hfull | ⟨-, hnil | hnil⟩
        · rw [le_antisymm hoff hused, hfull, Nat.mod_self]
        · exact absurd hnil hfile
        · rw [le_antisymm hoff hused, hnil]
          rfl
      · rw [hrest, take_append_drop]
      · simp only [length_take, drop_eq_nil_iff]
        omega
      · simp only [length_take, blockSize]
        omega
  · rw [LogSequentialReader.loadBlock, if_neg hused]
    exact .inr ⟨base, h, not_le.mp hused⟩

theorem Tracks.loaded (h : r.Tracks m base)
    (hend : ¬ (r.block.length ≤ r.blockOffset ∧ r.loadBlock.eof)) :
    ∃ base', r.loadBlock.Loaded m base' :=
  h.loadBlock.resolve_left fun hl => hend ⟨hl.1, hl.2.1⟩

theorem Loaded.advance (h : r.Loaded m base) {n : ℕ} (hn : r.blockOffset + n ≤ r.block.length) :
    Tracks { r with blockOffset := r.blockOffset + n } { m with cursor := m.cursor + n } base where
  eof := h.eof
  aligned := h.aligned
  bytes := h.bytes
  cursor := by rw [h.cursor, Nat.add_assoc]
  offset := hn
  block := h.block

/-- What the in-memory reader does where the file reader has a header in its block. -/
private theorem Loaded.readPhysical (h : r.Loaded m base)
    (hleft : headerSize ≤ r.block.length - r.blockOffset) :
    m.readPhysical =
      match checkPhysical r.blockOffset (r.block.drop r.blockOffset) with
      | .error e => (.error e, m)
      | .ok (kind, payload) =>
        let m' := { m with cursor := m.cursor + (headerSize + payload.length) }
        if kind = LogRecordHeader.kindZero ∧ payload.length = 0 then m'.readPhysical
        else (.ok (some (kind, payload)), m') := by
  have hlt := h.lt
  have hlen : ¬ (r.block.drop r.blockOffset ++ r.file).length < headerSize := by
    rw [length_append, length_drop]
    omega
  have hc : checkPhysical r.blockOffset (r.block.drop r.blockOffset ++ r.file) =
      checkPhysical r.blockOffset (r.block.drop r.blockOffset) := by
    rcases h.file with hfull | ⟨-, hnil⟩
    · exact checkPhysical_append _ (by rw [length_drop, hfull]) (by rw [length_drop]; exact hleft)
    · rw [hnil, append_nil]
  have hblk := h.file
  have hread := LogReader.readPhysical_of_room h.at (by omega)
  rw [if_neg hlen, hc] at hread
  rcases hphys : checkPhysical r.blockOffset (r.block.drop r.blockOffset) with
    e | ⟨kind, payload⟩ <;>
  · rw [hphys] at hread
    exact hread

/-- Both readers have come to the end of the log, or the file reader tracks the in-memory reader. -/
def Follows (r : LogSequentialReader) (m : LogReader) : Prop :=
  (∃ base, r.Tracks m base) ∨ r.Ended ∧ m.Ended

theorem Ended.readPhysical_eq (h : r.Ended) : r.readPhysical = (.ok none, r) := by
  obtain ⟨heof, hrest⟩ := h
  have hload : r.loadBlock = r := by
    rw [LogSequentialReader.loadBlock, fillBlock, if_pos heof, ite_self]
  rw [LogSequentialReader.readPhysical, hload]
  by_cases hused : r.block.length ≤ r.blockOffset
  · rw [if_pos ⟨hused, heof⟩]
  · obtain ⟨hleft, hshort⟩ := hrest.resolve_left hused
    rw [if_neg fun h => hused h.1, if_pos hleft, if_pos hshort, ← heof]

/-- **The file reader follows the in-memory reader**, also after an error and at the end. -/
theorem bisimulates_logReader : source.Bisimulates LogReader.source Follows := by
  rintro r m (⟨base, h⟩ | ⟨hr, hm⟩)
  swap
  · change (LogSequentialReader.readPhysical r).1 = m.readPhysical.1 ∧
      Follows (LogSequentialReader.readPhysical r).2 m.readPhysical.2
    rw [hr.readPhysical_eq, hm.readPhysical_eq]
    exact ⟨rfl, .inr ⟨hr, hm⟩⟩
  change (LogSequentialReader.readPhysical r).1 = m.readPhysical.1 ∧
    Follows (LogSequentialReader.readPhysical r).2 m.readPhysical.2
  fun_induction LogSequentialReader.readPhysical r generalizing m base with
  | case1 r r' hend =>
    rcases h.loadBlock with ⟨-, -, hnil⟩ | ⟨base', hl⟩
    · have hshort := h.at
      rw [hnil] at hshort
      have hnone : m.readPhysical.1 = .ok none := by
        refine LogReader.readPhysical_of_short hshort h.offset_le ?_
        simp only [headerSize, LogRecordHeader.size, length_nil]
        omega
      refine ⟨hnone.symm, .inr ⟨⟨hend.2, .inl ?_⟩, LogReader.ended_of_none hnone⟩⟩
      have hfile : r.file = [] := (append_eq_nil_iff.mp hnil).2
      simp only [r', LogSequentialReader.loadBlock, if_pos hend.1, fillBlock, h.eof, hfile]
      simp
    · exact absurd hl.eof (by simp [r', hend.2])
  | case2 r r' hend hleft hshort =>
    obtain ⟨base', hl⟩ : ∃ base', r'.Loaded m base' := h.loaded hend
    have hnil : r'.file = [] := (hl.file.resolve_left hshort.ne).2
    have hnone : m.readPhysical.1 = .ok none := by
      refine LogReader.readPhysical_of_short hl.at hl.offset_le ?_
      rw [hnil, append_nil, length_drop]
      exact lt_of_lt_of_le hleft (Nat.le_add_left _ _)
    exact ⟨hnone.symm, .inr ⟨⟨rfl, .inr ⟨hleft, hshort⟩⟩, LogReader.ended_of_none hnone⟩⟩
  | case3 r r' hend hleft hfull ih =>
    obtain ⟨base', hl⟩ : ∃ base', r'.Loaded m base' := h.loaded hend
    have hblk : r'.block.length = blockSize := hl.file.resolve_right fun hf => hfull hf.1
    have hlt := hl.lt
    have hmod : m.cursor % blockSize = r'.blockOffset := by
      rw [hl.at.offset]
      exact Nat.mod_eq_of_lt (by omega)
    rw [LogReader.readPhysical_trailer hmod (by omega)]
    have hnext := hl.advance (n := blockSize - r'.blockOffset) (by omega)
    have hoff : r'.blockOffset + (blockSize - r'.blockOffset) = r'.block.length := by omega
    rw [hoff] at hnext
    exact ih _ _ hnext
  | case4 r r' hend hleft e hc =>
    obtain ⟨base', hl⟩ : ∃ base', r'.Loaded m base' := h.loaded hend
    rw [hl.readPhysical (not_lt.mp hleft), show checkPhysical _ _ = _ from hc]
    exact ⟨rfl, .inl ⟨base', hl.toTracks⟩⟩
  | case5 r r' hend hleft kind payload hc r'' hzero ih =>
    obtain ⟨base', hl⟩ : ∃ base', r'.Loaded m base' := h.loaded hend
    have hlen := length_le_of_checkPhysical hc
    rw [length_drop] at hlen
    rw [hl.readPhysical (not_lt.mp hleft), show checkPhysical _ _ = _ from hc]
    simp only [if_pos hzero]
    exact ih _ _ (hl.advance (by simp only [headerSize, LogRecordHeader.size] at *; omega))
  | case6 r r' hend hleft kind payload hc r'' hzero =>
    obtain ⟨base', hl⟩ : ∃ base', r'.Loaded m base' := h.loaded hend
    have hlen := length_le_of_checkPhysical hc
    rw [length_drop] at hlen
    rw [hl.readPhysical (not_lt.mp hleft), show checkPhysical _ _ = _ from hc]
    simp only [if_neg hzero]
    exact ⟨trivial, .inl ⟨base', hl.advance
      (by simp only [headerSize, LogRecordHeader.size] at *; omega)⟩⟩

/-- Before the first block is read. -/
theorem follows_start (b : Bytes) : Follows { file := b } ⟨b, 0⟩ :=
  .inl ⟨0, rfl, rfl, rfl, rfl, le_rfl, .inr ⟨by simp [blockSize], .inr rfl⟩⟩

/-- **The streaming reader refines the in-memory one**, call after call. -/
theorem firstResults_eq (b : Bytes) (n : ℕ) :
    source.firstResults n { file := b } = LogReader.source.firstResults n ⟨b, 0⟩ :=
  bisimulates_logReader.firstResults n (follows_start b)

end LogSequentialReader

/-! ### The replay loop -/

namespace Log

variable {σ : Type}

/-- The recovery loop over a log file: `body` on each record until the end or an error. -/
def replay (body : σ → Bytes → Outcome σ) (st : σ) (file : Bytes) : Outcome σ :=
  LogSequentialReader.source.forEach body st { file := file }

/-- The recovery loop from a position in a log. -/
def resume (body : σ → Bytes → Outcome σ) (st : σ) (offset : ℕ) (rest : Bytes) : Outcome σ :=
  LogReader.source.forEach body st ⟨List.replicate offset 0 ++ rest, offset⟩

private theorem at_resume (offset : ℕ) (rest : Bytes) :
    LogReader.At ⟨List.replicate offset 0 ++ rest, offset⟩ offset rest :=
  ⟨rfl, drop_left' length_replicate⟩

variable {offset : ℕ} {rest : Bytes}

private theorem forEach_eq_resume {body : σ → Bytes → Outcome σ} {st : σ} {r : LogReader}
    (hat : r.At offset rest) :
    LogReader.source.forEach body st r = resume body st offset rest :=
  LogReader.simulates_samePosition.forEach ⟨offset, rest, hat, at_resume offset rest⟩

variable (body : σ → Bytes → Outcome σ) (st : σ)

theorem replay_eq_resume (file : Bytes) : replay body st file = resume body st 0 file :=
  LogSequentialReader.bisimulates_logReader.simulates.forEach
    (LogSequentialReader.follows_start file)

section

variable (ho : offset ≤ blockSize)
include ho

/-- **A framed record is read back** and reading goes on behind it. -/
theorem resume_framed (data tail : Bytes) :
    resume body st offset (framed true offset data ++ tail) =
      (body st data).andThen fun st' => resume body st' (endOffset offset data) tail := by
  obtain ⟨r', hread, hat⟩ := LogReader.readRecord_framed (at_resume offset _) ho
  rw [resume, PhysicalReader.forEach_of_record hread]
  congr 1
  funext st'
  exact forEach_eq_resume hat

theorem resume_of_short (hshort : rest.length < (padding offset).length + headerSize) :
    resume body st offset rest = (.ok (), st) :=
  PhysicalReader.forEach_of_none (LogReader.readRecord_of_short (at_resume offset rest) ho hshort)

theorem resume_nil : resume body st offset [] = (.ok (), st) :=
  resume_of_short body st ho (Nat.lt_of_lt_of_le (by decide) (Nat.le_add_left headerSize _))

theorem resume_truncated {n : ℕ} {data : Bytes} (hhead : (padding offset).length + headerSize ≤ n)
    (hcut : n < (framed true offset data).length) :
    ∃ e, resume body st offset ((framed true offset data).take n) = (.error e, st) := by
  obtain ⟨e, he⟩ := LogReader.readRecord_truncated (at_resume offset _) ho hhead hcut
  exact ⟨e, PhysicalReader.forEach_of_error he⟩

/-- Padding alone leaves the reader where it leaves the writer. -/
theorem resume_padding (tail : Bytes) :
    resume body st offset (padding offset ++ tail) = resume body st (startOffset offset) tail := by
  obtain ⟨r', hat', -, hread⟩ :=
    LogReader.exists_at_startOffset (at_resume offset (padding offset ++ tail)) ho
  rw [drop_left] at hat'
  rw [← forEach_eq_resume hat']
  have hsim : LogReader.source.Simulates LogReader.source
      fun r s => r = s ∨ r.readPhysical = s.readPhysical := by
    rintro r s (rfl | h)
    · exact ⟨rfl, fun _ _ => .inl rfl⟩
    · have h' : LogReader.source.readPhysical r = LogReader.source.readPhysical s := h
      rw [h']
      exact ⟨rfl, fun _ _ => .inl rfl⟩
  exact hsim.forEach (.inr hread)

end

theorem resume_preserves {P : σ → Prop} (hbody : ∀ st record, P st → P (body st record).2)
    (h : P st) : P (resume body st offset rest).2 :=
  PhysicalReader.forEach_preserves hbody h

/-! ### What a log holds -/

/-- The body of the loop on one record after the other, up to the first failure. -/
def applyRecords (st : σ) : List Bytes → Outcome σ
  | [] => (.ok (), st)
  | record :: records => (body st record).andThen fun st' => applyRecords st' records

theorem applyRecords_append (records more : List Bytes) :
    applyRecords body st (records ++ more) =
      (applyRecords body st records).andThen fun st' => applyRecords body st' more := by
  induction records generalizing st with
  | nil => rfl
  | cons record records ih =>
    simp only [cons_append, applyRecords, Outcome.andThen_assoc, ih]

/-- The records of a log: those that are read before its end or the first error. -/
def records (file : Bytes) : List Bytes :=
  (replay (fun records record => (.ok (), records ++ [record])) [] file).2

private theorem applyRecords_collect (read records : List Bytes) :
    applyRecords (fun records record => (.ok (), records ++ [record])) read records =
      (.ok (), read ++ records) := by
  induction records generalizing read with
  | nil => rw [applyRecords, append_nil]
  | cons record records ih =>
    rw [applyRecords, Outcome.andThen_ok, ih, append_assoc, singleton_append]

private theorem exists_records (r : LogSequentialReader) : ∃ records status, ∀ {σ : Type}
    (body : σ → Bytes → Outcome σ) (st : σ), LogSequentialReader.source.forEach body st r =
      (applyRecords body st records).andThen fun st' => (status, st') := by
  induction hn : LogSequentialReader.source.remaining r using Nat.strong_induction_on
    generalizing r with
  | _ n ih =>
    rcases hread : LogSequentialReader.source.readRecord r with ⟨e | _ | record, r'⟩
    · exact ⟨[], .error e, fun body st => PhysicalReader.forEach_of_error (by rw [hread])⟩
    · exact ⟨[], .ok (), fun body st => PhysicalReader.forEach_of_none (by rw [hread])⟩
    · have hlt := LogSequentialReader.source.remaining_lt_of_readRecord hread
      obtain ⟨records, status, hrest⟩ := ih _ (hn ▸ hlt) r' rfl
      refine ⟨record :: records, status, fun body st => ?_⟩
      rw [PhysicalReader.forEach_of_record hread, applyRecords, Outcome.andThen_assoc]
      simp only [hrest]

/-- **The loop over a log is the loop over its records**, with a status that depends on the log. -/
theorem exists_replay_eq (file : Bytes) : ∃ status, ∀ {σ : Type} (body : σ → Bytes → Outcome σ)
    (st : σ), replay body st file =
      (applyRecords body st (records file)).andThen fun st' => (status, st') := by
  obtain ⟨read, status, hread⟩ := exists_records { file := file }
  have hrecs : records file = read := by
    rw [records, replay, hread, applyRecords_collect]
    rfl
  exact ⟨status, fun body st => hrecs ▸ hread body st⟩

end Log

/-- **A log of records.** Replaying the bytes that it has accepted, and any more behind them, runs
the body on the records and goes on at the offset of the writer. -/
structure LogFile.Holds (m : LogFile) (records : List Bytes) : Prop where
  offset : m.blockOffset ≤ blockSize
  reads : ∀ {σ : Type} (body : σ → Bytes → Outcome σ) (st : σ) (tail : Bytes),
    resume body st 0 (m.file.accepted ++ tail) =
      (applyRecords body st records).andThen fun st' => resume body st' m.blockOffset tail

namespace LogFile

variable {m m' : LogFile} {records : List Bytes}

theorem holds_empty : Holds {} [] := ⟨Nat.zero_le _, fun _ _ _ => rfl⟩

theorem Holds.appended (h : m.Holds records) (record : Bytes) :
    (m.appended record).Holds (records ++ [record]) := by
  refine ⟨endOffset_le _ _, fun body st tail => ?_⟩
  rw [accepted_appended, append_assoc, h.reads, applyRecords_append, Outcome.andThen_assoc]
  simp only [resume_framed _ _ h.offset, applyRecords, Outcome.andThen_assoc, Outcome.andThen_ok]
  rfl

/-- The replay of a log that has passed on all of its bytes. -/
theorem Holds.replay {σ : Type} (h : m.Holds records) (hbuffer : m.file.buffer = [])
    (body : σ → Bytes → Outcome σ) (st : σ) :
    Log.replay body st m.file.flushed = applyRecords body st records := by
  have hreads := h.reads body st []
  rw [append_nil, WritableFile.accepted, hbuffer, append_nil] at hreads
  rw [replay_eq_resume, hreads]
  simp only [resume_nil _ _ h.offset]
  rcases applyRecords body st records with ⟨e | u, st'⟩ <;> rfl

/-- A clean failure leaves the log as it was, or padded. -/
theorem Holds.of_cleanFault (h : m.Holds records) (hflushed : m'.file.flushed = m.file.flushed)
    (hrest : m'.blockOffset = m.blockOffset ∧ m'.file.buffer = m.file.buffer ∨
      m'.blockOffset = startOffset m.blockOffset ∧
        m'.file.buffer = m.file.buffer ++ padding m.blockOffset) :
    m'.Holds records := by
  rcases hrest with ⟨hoff, hbuf⟩ | ⟨hoff, hbuf⟩
  · refine ⟨hoff ▸ h.offset, fun body st tail => ?_⟩
    rw [hoff, WritableFile.accepted, hflushed, hbuf]
    exact h.reads body st tail
  · have hle := startOffset_add_room m.blockOffset
    refine ⟨by omega, fun body st tail => ?_⟩
    have hb : m'.file.accepted ++ tail =
        m.file.accepted ++ (padding m.blockOffset ++ tail) := by
      simp [WritableFile.accepted, hflushed, hbuf]
    rw [hb, h.reads, hoff]
    simp only [resume_padding _ _ h.offset]

end LogFile

/-! ### The in-memory writer and reader -/

theorem LogWriter.blockOffset_foldl_le (records : List Bytes) :
    (records.foldl addRecord {}).blockOffset ≤ blockSize := by
  induction records using List.reverseRecOn with
  | nil => exact Nat.zero_le _
  | append_singleton records record _ =>
    rw [foldl_concat, addRecord_eq]
    exact endOffset_le _ _

/-- The bytes of a writer are replayed record by record, and reading goes on at its offset. -/
theorem LogWriter.resume_foldl {σ : Type} (body : σ → Bytes → Outcome σ) (st : σ)
    (records : List Bytes) (tail : Bytes) :
    resume body st 0 ((records.foldl addRecord {}).sink ++ tail) =
      (applyRecords body st records).andThen fun st' =>
        resume body st' (records.foldl addRecord {}).blockOffset tail := by
  induction records using List.reverseRecOn generalizing tail with
  | nil => rfl
  | append_singleton records record ih =>
    have ho := blockOffset_foldl_le records
    rw [foldl_concat, addRecord_eq, append_assoc, ih, applyRecords_append, Outcome.andThen_assoc]
    simp only [resume_framed _ _ ho, applyRecords, Outcome.andThen_assoc, Outcome.andThen_ok]

namespace LogReader

/-- Read records until `read_record` returns `Ok(None)` or an error. -/
def readAll (bytes : Bytes) : Outcome (List Bytes) :=
  source.forEach (fun records record => (.ok (), records ++ [record])) [] ⟨bytes, 0⟩

/-- **The records that were added are read back**, in order and without an error, and then the log
ends. -/
theorem readAll_foldl_addRecord (records : List Bytes) :
    readAll (records.foldl LogWriter.addRecord {}).sink = (.ok (), records) := by
  have h := LogWriter.resume_foldl (fun read record => (.ok (), read ++ [record])) [] records []
  rw [append_nil, applyRecords_collect, Outcome.andThen_ok, nil_append,
    resume_nil _ _ (LogWriter.blockOffset_foldl_le records)] at h
  exact h

end LogReader

/-! ### Truncated logs -/

/-- The records that a writer adds, each with the number of bytes up to the end of its last
fragment. -/
def LogWriter.recordEnds (w : LogWriter) : List Bytes → List (Bytes × ℕ)
  | [] => []
  | record :: records =>
    (record, (w.addRecord record).sink.length) :: (w.addRecord record).recordEnds records

namespace LogReader

/-- The records that are complete in the first `p` bytes. -/
def completeRecords (records : List Bytes) (p : ℕ) : List Bytes :=
  ((LogWriter.recordEnds {} records).filter (·.2 ≤ p)).map (·.1)

private theorem exists_sink_foldl (w : LogWriter) (records : List Bytes) :
    ∃ bytes, (records.foldl LogWriter.addRecord w).sink = w.sink ++ bytes := by
  induction records generalizing w with
  | nil => exact ⟨[], (append_nil _).symm⟩
  | cons record records ih =>
    obtain ⟨bytes, hb⟩ := ih (w.addRecord record)
    refine ⟨framed true w.blockOffset record ++ bytes, ?_⟩
    rw [foldl_cons, hb, LogWriter.addRecord_eq, append_assoc]

private theorem le_of_mem_recordEnds {w : LogWriter} {records : List Bytes} {x : Bytes × ℕ}
    (hx : x ∈ w.recordEnds records) : w.sink.length ≤ x.2 := by
  induction records generalizing w with
  | nil => cases hx
  | cons record records ih =>
    have hle : w.sink.length ≤ (w.addRecord record).sink.length := by
      rw [LogWriter.addRecord_eq, length_append]
      exact Nat.le_add_right _ _
    rcases mem_cons.mp hx with rfl | hx
    · exact hle
    · exact hle.trans (ih hx)

/-- Reading the first `q` of the bytes that a writer appends. The cut is in one record; the records
before it are read, and nothing is read behind it, be there an error or not. -/
private theorem resume_take {w : LogWriter} (ho : w.blockOffset ≤ blockSize)
    {records : List Bytes} {bytes : Bytes}
    (hb : (records.foldl LogWriter.addRecord w).sink = w.sink ++ bytes) (read : List Bytes)
    (q : ℕ) :
    (resume (fun read record => (.ok (), read ++ [record])) read w.blockOffset (bytes.take q)).2 =
      read ++ ((w.recordEnds records).filter (·.2 ≤ w.sink.length + q)).map (·.1) := by
  induction records generalizing w bytes read q with
  | nil =>
    obtain rfl : bytes = [] := self_eq_append_right.mp hb
    rw [take_nil, resume_nil _ _ ho]
    exact (append_nil read).symm
  | cons record records ih =>
    obtain ⟨tail, htail⟩ := exists_sink_foldl (w.addRecord record) records
    have hsink : (w.addRecord record).sink = w.sink ++ framed true w.blockOffset record := by
      rw [LogWriter.addRecord_eq]
    obtain rfl : bytes = framed true w.blockOffset record ++ tail := by
      rw [foldl_cons, htail, hsink, append_assoc] at hb
      exact (append_cancel_left hb).symm
    have hlength := congrArg List.length hsink
    rw [length_append] at hlength
    rcases le_or_gt (framed true w.blockOffset record).length q with hq | hq
    · have hnext : (w.addRecord record).blockOffset = endOffset w.blockOffset record := by
        rw [LogWriter.addRecord_eq]
      have hread := ih (hnext ▸ endOffset_le _ _) htail (read ++ [record])
        (q - (framed true w.blockOffset record).length)
      rw [take_append, take_of_length_le hq, resume_framed _ _ ho,
        Outcome.andThen_ok, ← hnext, hread, LogWriter.recordEnds, hlength,
        Nat.add_assoc, Nat.add_sub_cancel' hq]
      rw [filter_cons_of_pos (by simpa using hq), map_cons, append_assoc, singleton_append]
    · have hnone : (w.recordEnds (record :: records)).filter (·.2 ≤ w.sink.length + q) = [] := by
        rw [filter_eq_nil_iff]
        intro x hx
        have hle : (w.addRecord record).sink.length ≤ x.2 := by
          rcases mem_cons.mp hx with rfl | hx
          · exact le_rfl
          · exact le_of_mem_recordEnds hx
        simp only [decide_eq_true_eq]
        omega
      rw [hnone, map_nil, append_nil, take_append_of_le_length hq.le]
      rcases lt_or_ge q ((padding w.blockOffset).length + headerSize) with hshort | hhead
      · rw [resume_of_short _ _ ho (by rw [length_take]; omega)]
      · obtain ⟨e, he⟩ := resume_truncated (fun read record => (.ok (), read ++ [record])) read
          ho hhead hq
        rw [he]

/-- **A truncated log yields exactly its complete records.** -/
theorem readAll_take (records : List Bytes) (p : ℕ) :
    (readAll ((records.foldl LogWriter.addRecord {}).sink.take p)).2 =
      completeRecords records p := by
  have h := resume_take (w := {}) (Nat.zero_le _)
    (nil_append (records.foldl LogWriter.addRecord {}).sink).symm [] p
  rwa [nil_append, length_nil, Nat.zero_add] at h

end LogReader
end PulsearcDb
