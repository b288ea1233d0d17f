import PulsearcDb.Log.Reader

/-!
# The record log: what is written is read back

What the in-memory reader does where a record was framed: it reads a whole record back
(`readRecord_framed`), takes bytes that hold no complete header for the end of the log
(`readRecord_of_short`), and reports an error for a record that is cut behind its first header
(`readRecord_truncated`). A reader stands `At` a block offset with some bytes before it.
-/

namespace PulsearcDb

open Log List

/-! ### One physical record -/

private theorem length_header (h : LogRecordHeader) : h.encode.length = headerSize :=
  h.length_encode

theorem length_physicalRecord (kind : UInt8) (data : Bytes) :
    (physicalRecord kind data).length = headerSize + data.length := by
  rw [physicalRecord, length_append, length_header]

variable {kind : UInt8} {data : Bytes}

private theorem decodeFrom_take_physicalRecord (tail : Bytes) (hdata : data.length < 2 ^ 16) :
    LogRecordHeader.decodeFrom ((physicalRecord kind data ++ tail).take headerSize) =
      .ok (⟨recordCrc kind data, data.length, kind⟩, []) := by
  rw [physicalRecord, Nat.mod_eq_of_lt hdata, append_assoc, take_left' (length_header _)]
  have h := LogRecordHeader.decodeFrom_encode (h := ⟨recordCrc kind data, data.length, kind⟩)
    [] hdata
  rwa [append_nil] at h

theorem checkPhysical_physicalRecord {offset : ℕ} (tail : Bytes)
    (hfits : data.length ≤ blockSize - offset - headerSize) :
    checkPhysical offset (physicalRecord kind data ++ tail) = .ok (kind, data) := by
  have hdata : data.length < 2 ^ 16 := by
    simp only [blockSize] at hfits
    omega
  have hpayload : ((physicalRecord kind data ++ tail).drop headerSize).take data.length = data := by
    rw [physicalRecord, append_assoc, drop_left' (length_header _), take_left]
  have hlen : ¬ (physicalRecord kind data ++ tail).length < headerSize + data.length := by
    rw [length_append, length_physicalRecord]
    omega
  rw [checkPhysical, decodeFrom_take_physicalRecord tail hdata, ok_bind]
  simp only [not_lt.mpr hfits, hlen, hpayload, if_false, ne_eq, not_true_eq_false]
  rfl

theorem checkPhysical_truncated {offset n : ℕ}
    (hfits : data.length ≤ blockSize - offset - headerSize) (hh : headerSize ≤ n)
    (hcut : n < headerSize + data.length) :
    checkPhysical offset ((physicalRecord kind data).take n) =
      .error (Status.corruption "LogReader: truncated payload") := by
  have hdata : data.length < 2 ^ 16 := by
    simp only [blockSize] at hfits
    omega
  have hhead : ((physicalRecord kind data).take n).take headerSize =
      (physicalRecord kind data ++ []).take headerSize := by
    rw [take_take, Nat.min_eq_left hh, append_nil]
  have hlen : ((physicalRecord kind data).take n).length < headerSize + data.length := by
    rw [length_take]
    omega
  rw [checkPhysical, hhead, decodeFrom_take_physicalRecord [] hdata, ok_bind]
  simp only [not_lt.mpr hfits, hlen, if_false, if_true]

/-! ### Positions -/

namespace LogReader

/-- The reader stands at a block offset with the given bytes before it. -/
structure At (r : LogReader) (offset : ℕ) (rest : Bytes) : Prop where
  offset : r.cursor % blockSize = offset % blockSize
  rest : r.bytes.drop r.cursor = rest

variable {r : LogReader} {offset n : ℕ} {rest scratch payload tail : Bytes} {begin : Bool}
  {kind : UInt8}

theorem At.advance {skipped : Bytes} (h : r.At offset (skipped ++ rest)) (hn : skipped.length = n) :
    At { r with cursor := r.cursor + n } (offset + n) rest := by
  refine ⟨?_, ?_⟩
  · rw [Nat.add_mod, h.offset, ← Nat.add_mod]
  · rw [← drop_drop, h.rest, drop_left' hn]

theorem At.length (h : r.At offset rest) : rest.length = r.bytes.length - r.cursor := by
  rw [← h.rest, length_drop]

/-- A trailer, padded or cut short, is skipped. -/
theorem readPhysical_trailer (hmod : r.cursor % blockSize = offset)
    (h : blockSize - offset < headerSize) :
    r.readPhysical = readPhysical { r with cursor := r.cursor + (blockSize - offset) } := by
  rw [readPhysical]
  simp only [hmod, if_pos h]

/-- What `read_physical` does outside a trailer. -/
theorem readPhysical_of_room (hat : r.At offset rest) (hoff : offset + headerSize ≤ blockSize) :
    r.readPhysical =
      if rest.length < headerSize then (.ok none, r)
      else
        match checkPhysical offset rest with
        | .error e => (.error e, r)
        | .ok (kind, payload) =>
          let r' := { r with cursor := r.cursor + (headerSize + payload.length) }
          if kind = LogRecordHeader.kindZero ∧ payload.length = 0 then r'.readPhysical
          else (.ok (some (kind, payload)), r') := by
  have hmod : r.cursor % blockSize = offset := by
    rw [hat.offset]
    exact Nat.mod_eq_of_lt (by simp only [headerSize, LogRecordHeader.size] at hoff; omega)
  have hroom : ¬ blockSize - offset < headerSize := by omega
  have hlen : r.bytes.length < r.cursor + headerSize ↔ rest.length < headerSize := by
    rw [hat.length]
    simp only [headerSize, LogRecordHeader.size]
    omega
  rw [readPhysical]
  rcases hcheck : checkPhysical offset rest with e | ⟨kind, payload⟩ <;>
    simp only [hmod, if_neg hroom, hlen, hat.rest, hcheck]

/-- Before a fragment the reader moves to the start offset, over the padding if there is any. -/
theorem exists_at_startOffset (hat : r.At offset rest) (hoff : offset ≤ blockSize) :
    ∃ r' : LogReader, r'.At (startOffset offset) (rest.drop (padding offset).length) ∧
      r'.bytes = r.bytes ∧
      r.readPhysical = r'.readPhysical := by
  rcases startOffset_cases offset with ⟨htrailer, hstart⟩ | ⟨hroom, hstart⟩
  · have hpad : (padding offset).length = blockSize - offset := by
      rw [padding, if_pos htrailer, length_replicate]
    rw [hstart, hpad]
    rcases hoff.eq_or_lt with rfl | hlt
    · refine ⟨r, ⟨by rw [hat.offset, Nat.mod_self, Nat.zero_mod], ?_⟩, rfl, rfl⟩
      rw [Nat.sub_self, drop_zero, hat.rest]
    · have hmod : r.cursor % blockSize = offset := by rw [hat.offset, Nat.mod_eq_of_lt hlt]
      refine ⟨{ r with cursor := r.cursor + (blockSize - offset) }, ⟨?_, ?_⟩, rfl,
        readPhysical_trailer hmod htrailer⟩
      · rw [← hmod, add_leftover_mod, Nat.zero_mod]
      · rw [← drop_drop, hat.rest]
  · have hpad : padding offset = [] := by rw [padding, if_neg (not_lt.mpr hroom)]
    rw [hstart, hpad]
    exact ⟨r, hat, rfl, rfl⟩

theorem readPhysical_of_short (hat : r.At offset rest) (hoff : offset ≤ blockSize)
    (hshort : rest.length < (padding offset).length + headerSize) :
    (r.readPhysical).1 = .ok none := by
  obtain ⟨r', hat', -, hread⟩ := exists_at_startOffset hat hoff
  have hfull := startOffset_add_room offset
  rw [hread, readPhysical_of_room hat' (by omega), if_pos]
  rw [length_drop]
  simp only [headerSize, LogRecordHeader.size] at *
  omega

theorem readPhysical_fragment
    (hat : r.At offset (padding offset ++ physicalRecord kind payload ++ tail))
    (hoff : offset ≤ blockSize) (hfits : payload.length ≤ room offset)
    (hkind : kind ≠ LogRecordHeader.kindZero) :
    ∃ r', r.readPhysical = (.ok (some (kind, payload)), r') ∧
      r'.At (startOffset offset + (headerSize + payload.length)) tail ∧ r'.bytes = r.bytes := by
  obtain ⟨r₁, hat₁, hbytes, hread⟩ := exists_at_startOffset hat hoff
  rw [append_assoc, drop_left] at hat₁
  have hfull := startOffset_add_room offset
  have hlen : ¬ (physicalRecord kind payload ++ tail).length < headerSize := by
    rw [length_append, length_physicalRecord]
    omega
  refine ⟨_, ?_, hat₁.advance (length_physicalRecord kind payload), hbytes⟩
  rw [hread, readPhysical_of_room hat₁ (by omega), if_neg hlen,
    checkPhysical_physicalRecord tail (by simpa only [room] using hfits)]
  simp only [hkind, false_and, if_false]

theorem readPhysical_truncated
    (hat : r.At offset ((padding offset ++ physicalRecord kind payload).take n))
    (hoff : offset ≤ blockSize) (hfits : payload.length ≤ room offset)
    (hh : (padding offset).length + headerSize ≤ n)
    (hcut : n < (padding offset ++ physicalRecord kind payload).length) :
    (r.readPhysical).1 = .error (Status.corruption "LogReader: truncated payload") := by
  obtain ⟨r₁, hat₁, -, hread⟩ := exists_at_startOffset hat hoff
  have hfull := startOffset_add_room offset
  rw [length_append, length_physicalRecord] at hcut
  rw [drop_take, drop_left] at hat₁
  have hlen : ¬ ((physicalRecord kind payload).take (n - (padding offset).length)).length <
      headerSize := by
    rw [length_take, length_physicalRecord]
    omega
  rw [hread, readPhysical_of_room hat₁ (by omega), if_neg hlen,
    checkPhysical_truncated (by simpa only [room] using hfits) (by omega) (by omega)]

/-! ### Whole records -/

private theorem fragmentKind_ne_zero (begin last : Bool) :
    fragmentKind begin last ≠ LogRecordHeader.kindZero := by
  revert begin last
  decide

/-- The state of the assembly before a fragment: no fragment has been read before the first. -/
private def Before (begin : Bool) (scratch : Bytes) : Prop := begin = true → scratch = []

private theorem assemble_last (payload : Bytes) (h : Before begin scratch) :
    PhysicalReader.assemble (!begin) scratch (fragmentKind begin true) payload =
      .ok (.record (scratch ++ payload)) := by
  cases begin
  · rfl
  · rw [h rfl]
    rfl

private theorem assemble_more (payload : Bytes) (h : Before begin scratch) :
    PhysicalReader.assemble (!begin) scratch (fragmentKind begin false) payload =
      .ok (.pending (scratch ++ payload)) := by
  cases begin
  · rfl
  · rw [h rfl]
    rfl

/-- A record is read back from where it was framed. -/
private theorem readRecordLoop_framed {left : Bytes}
    (hat : r.At offset (framed begin offset left ++ tail)) (hoff : offset ≤ blockSize)
    (hbefore : Before begin scratch) :
    ∃ r', source.readRecordLoop (!begin) scratch r = (.ok (some (scratch ++ left)), r') ∧
      r'.At (endOffset offset left) tail := by
  fun_induction fragments begin offset left generalizing r scratch with
  | case1 begin offset left hle =>
    rw [framed_of_le hle] at hat
    obtain ⟨r', hread, hat', -⟩ := readPhysical_fragment hat hoff hle
      (fragmentKind_ne_zero begin true)
    rw [← endOffset_of_le hle] at hat'
    exact ⟨r', PhysicalReader.readRecordLoop_of_record hread (assemble_last left hbefore), hat'⟩
  | case2 begin offset left hmore ih =>
    have hlt : room offset < left.length := not_le.mp hmore
    rw [framed_of_lt hlt, append_assoc] at hat
    obtain ⟨r₁, hread, hat₁, -⟩ := readPhysical_fragment hat hoff (length_take_le _ _)
      (fragmentKind_ne_zero begin false)
    rw [length_take_of_le hlt.le, startOffset_add_room] at hat₁
    obtain ⟨r', hloop, hat'⟩ :=
      @ih r₁ (scratch ++ left.take (room offset)) hat₁ le_rfl (by simp [Before])
    refine ⟨r', ?_, by rwa [endOffset_of_lt hlt]⟩
    rw [PhysicalReader.readRecordLoop_of_pending hread (assemble_more _ hbefore)]
    simpa using hloop

private theorem readRecordLoop_fragment_truncated
    (hat : r.At offset ((padding offset ++ physicalRecord kind payload).take n))
    (hoff : offset ≤ blockSize) (hfits : payload.length ≤ room offset)
    (hcut : n < (padding offset ++ physicalRecord kind payload).length)
    (hh : begin = true → (padding offset).length + headerSize ≤ n) :
    ∃ e, (source.readRecordLoop (!begin) scratch r).1 = .error e := by
  by_cases hn : (padding offset).length + headerSize ≤ n
  · exact ⟨_, PhysicalReader.readRecordLoop_of_error
      (readPhysical_truncated hat hoff hfits hn hcut)⟩
  · obtain rfl : begin = false := by
      cases begin
      · rfl
      · exact absurd (hh rfl) hn
    refine ⟨_, PhysicalReader.readRecordLoop_of_none (readPhysical_of_short hat hoff ?_)⟩
    rw [length_take]
    omega

/-- A record that is cut, not in its first header, is an error. -/
private theorem readRecordLoop_truncated {left : Bytes}
    (hat : r.At offset ((framed begin offset left).take n)) (hoff : offset ≤ blockSize)
    (hbefore : Before begin scratch) (hcut : n < (framed begin offset left).length)
    (hh : begin = true → (padding offset).length + headerSize ≤ n) :
    ∃ e, (source.readRecordLoop (!begin) scratch r).1 = .error e := by
  fun_induction fragments begin offset left generalizing r scratch n with
  | case1 begin offset left hle =>
    rw [framed_of_le hle] at hat hcut
    exact readRecordLoop_fragment_truncated hat hoff hle hcut hh
  | case2 begin offset left hmore ih =>
    have hlt : room offset < left.length := not_le.mp hmore
    have hlen := length_take_le (room offset) left
    rw [framed_of_lt hlt] at hat hcut
    rcases lt_or_ge n (padding offset ++ physicalRecord (fragmentKind begin false)
      (left.take (room offset))).length with hfst | hrest
    · rw [take_append_of_le_length hfst.le] at hat
      exact readRecordLoop_fragment_truncated hat hoff hlen hfst hh
    · rw [take_append, take_of_length_le hrest] at hat
      obtain ⟨r₁, hread, hat₁, -⟩ := readPhysical_fragment hat hoff hlen
        (fragmentKind_ne_zero begin false)
      rw [length_take_of_le hlt.le, startOffset_add_room] at hat₁
      rw [length_append] at hcut
      rw [PhysicalReader.readRecordLoop_of_pending hread (assemble_more _ hbefore)]
      exact @ih r₁ _ (scratch ++ left.take (room offset)) hat₁ le_rfl (by simp [Before])
        (by omega) (by simp)

theorem readRecord_framed (hat : r.At offset (framed true offset data ++ tail))
    (hoff : offset ≤ blockSize) :
    ∃ r', source.readRecord r = (.ok (some data), r') ∧ r'.At (endOffset offset data) tail :=
  readRecordLoop_framed hat hoff fun _ => rfl

theorem readRecord_of_short (hat : r.At offset rest) (hoff : offset ≤ blockSize)
    (hshort : rest.length < (padding offset).length + headerSize) :
    (source.readRecord r).1 = .ok none :=
  PhysicalReader.readRecordLoop_of_none (readPhysical_of_short hat hoff hshort)

theorem readRecord_truncated (hat : r.At offset ((framed true offset data).take n))
    (hoff : offset ≤ blockSize) (hh : (padding offset).length + headerSize ≤ n)
    (hcut : n < (framed true offset data).length) :
    ∃ e, (source.readRecord r).1 = .error e :=
  readRecordLoop_truncated hat hoff (fun _ => rfl) hcut fun _ => hh

end LogReader
end PulsearcDb
