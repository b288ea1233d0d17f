import PulsearcDb.Crc32c

/-!
# The record log: writing

`log/log_record_header.rs` and the write side of `log/log.rs`. A log is a sequence of blocks of
`blockSize` bytes. A record is cut into fragments that do not cross a block boundary; each fragment
is a header (masked checksum, length, kind) and its payload, and a block with less than a header
left is filled with zeros.

`LogWriter.addRecord` is the in-memory writer. What it appends depends on the block offset only:
`fragments` lists the fragments of a record written at an offset, `framed` their bytes and
`endOffset` the offset after them (`addRecord_eq`).
-/

namespace PulsearcDb

open List

/-! ### Record headers -/

/-- Checksum, length and kind of a fragment. -/
structure LogRecordHeader where
  crc : UInt32
  length : ℕ
  kind : UInt8
  deriving DecidableEq, Repr

namespace LogRecordHeader

/-- The header has seven bytes. -/
def size : ℕ := 7

/-- Reserved for preallocated files. -/
def kindZero : UInt8 := 0

/-- A whole record. -/
def kindFull : UInt8 := 1

/-- The first fragment of a record. -/
def kindFirst : UInt8 := 2

/-- A fragment in between. -/
def kindMiddle : UInt8 := 3

/-- The last fragment of a record. -/
def kindLast : UInt8 := 4

/-- The masked checksum, the length and the kind. -/
def encode (h : LogRecordHeader) : Bytes :=
  putFixed32 (Crc32c.mask h.crc).toNat ++ (putFixed16 h.length ++ [h.kind])

/-- Read a header through a cursor. -/
def decodeFrom (input : Bytes) : Result (LogRecordHeader × Bytes) := do
  let (crcRaw, input) ← orCorruption "LogRecordHeader: missing crc" (getFixed32 input)
  let (length, input) ← orCorruption "LogRecordHeader: missing length" (getFixed16 input)
  let (kind, input) ← orCorruption "LogRecordHeader: missing kind" (getU8 input)
  return (⟨Crc32c.unmask (UInt32.ofNat crcRaw), length, kind⟩, input)

@[simp] theorem length_encode (h : LogRecordHeader) : h.encode.length = size := by
  simp [encode, putFixed32, putFixed16, size]

theorem decodeFrom_encode {h : LogRecordHeader} (rest : Bytes) (hlen : h.length < 2 ^ 16) :
    decodeFrom (h.encode ++ rest) = .ok (h, rest) := by
  have hcrc : (Crc32c.mask h.crc).toNat < 256 ^ 4 := (Crc32c.mask h.crc).toNat_lt
  simp only [decodeFrom, encode, putFixed32, putFixed16, append_assoc, getFixed32, getFixed16,
    getFixed_leBytes _ hcrc, getFixed_leBytes _ (show h.length < 256 ^ 2 from hlen), orCorruption,
    ok_bind, singleton_append, getU8, UInt32.ofNat_toNat, Crc32c.unmask_mask]
  rfl

end LogRecordHeader

namespace Log

/-- Logs are cut into blocks of 32 KiB. -/
def blockSize : ℕ := 32768

/-- The length of a header. -/
def headerSize : ℕ := LogRecordHeader.size

/-- The checksum of a physical record covers its kind and its payload. -/
def recordCrc (kind : UInt8) (data : Bytes) : UInt32 :=
  Crc32c.extend (Crc32c.value [kind]) data

/-- The bytes of one physical record. -/
def physicalRecord (kind : UInt8) (data : Bytes) : Bytes :=
  LogRecordHeader.encode ⟨recordCrc kind data, data.length % 2 ^ 16, kind⟩ ++ data

/-- The kind of a fragment: `begin` for the first one of its record, `last` for the last one. -/
def fragmentKind (begin last : Bool) : UInt8 :=
  if begin && last then LogRecordHeader.kindFull
  else if begin then LogRecordHeader.kindFirst
  else if last then LogRecordHeader.kindLast
  else LogRecordHeader.kindMiddle

/-- The offset at which a fragment is put: a block with no room for a header is left. -/
def startOffset (offset : ℕ) : ℕ := if blockSize - offset < headerSize then 0 else offset

/-- The zeros that fill the block before it is left. -/
def padding (offset : ℕ) : Bytes :=
  if blockSize - offset < headerSize then List.replicate (blockSize - offset) 0 else []

/-- The payload bytes that fit behind a header at the start offset. -/
def room (offset : ℕ) : ℕ := blockSize - startOffset offset - headerSize

theorem startOffset_cases (offset : ℕ) :
    blockSize - offset < headerSize ∧ startOffset offset = 0 ∨
      headerSize ≤ blockSize - offset ∧ startOffset offset = offset := by
  unfold startOffset
  split_ifs with h
  · exact .inl ⟨h, rfl⟩
  · exact .inr ⟨not_lt.mp h, rfl⟩

theorem startOffset_add_room (offset : ℕ) :
    startOffset offset + (headerSize + room offset) = blockSize := by
  have hcases := startOffset_cases offset
  simp only [room, blockSize, headerSize, LogRecordHeader.size] at *
  omega

/-- The measure of the fragment loops. Only right before the end of a block there is no room for
payload, and the block after it has some. -/
def loopMeasure (offset : ℕ) (left : Bytes) : ℕ :=
  2 * left.length + if offset + headerSize = blockSize then 1 else 0

theorem loopMeasure_lt {offset : ℕ} {left : Bytes} (h : room offset < left.length) :
    loopMeasure blockSize (left.drop (room offset)) < loopMeasure offset left := by
  have hcases := startOffset_cases offset
  have hroom := startOffset_add_room offset
  have hblk : ¬ blockSize + headerSize = blockSize := by decide
  rw [loopMeasure, loopMeasure, if_neg hblk, length_drop]
  split_ifs with hend
  · omega
  · simp only [blockSize, headerSize, LogRecordHeader.size] at *
    omega

end Log

/-! ### The in-memory writer -/

/-- `struct LogWriter`, without the scratch buffer of the streaming path. -/
structure LogWriter where
  sink : Bytes := []
  blockOffset : ℕ := 0
  deriving DecidableEq, Repr

namespace LogWriter

open Log

/-- Write one fragment. -/
def emitPhysicalRecord (w : LogWriter) (kind : UInt8) (data : Bytes) : LogWriter where
  sink := w.sink ++ physicalRecord kind data
  blockOffset := w.blockOffset + (headerSize + data.length)

/-- Zero-fill a block that has no room for a header. -/
def startBlock (w : LogWriter) : LogWriter :=
  if blockSize - w.blockOffset < headerSize then
    { sink := w.sink ++ List.replicate (blockSize - w.blockOffset) 0, blockOffset := 0 }
  else w

theorem startBlock_eq (w : LogWriter) :
    w.startBlock = ⟨w.sink ++ padding w.blockOffset, startOffset w.blockOffset⟩ := by
  simp only [startBlock, padding, startOffset]
  split_ifs <;> simp

/-- The loop of `add_record`. -/
def addRecordLoop (w : LogWriter) (left : Bytes) (begin : Bool) : LogWriter :=
  let w' := w.startBlock
  let fragmentLen := min left.length (blockSize - w'.blockOffset - headerSize)
  let w'' := w'.emitPhysicalRecord (fragmentKind begin (left.length = fragmentLen))
    (left.take fragmentLen)
  if left.length = fragmentLen then w''
  else addRecordLoop w'' (left.drop fragmentLen) false
termination_by loopMeasure w.blockOffset left
decreasing_by
  have hlen : fragmentLen = min left.length (room w.blockOffset) := by
    simp only [fragmentLen, w', startBlock_eq, room]
  have hmore : room w.blockOffset < left.length := by omega
  have hfull : w''.blockOffset = blockSize := by
    have hroom : fragmentLen = room w.blockOffset := by omega
    simp only [w'', emitPhysicalRecord, w', startBlock_eq, hroom,
      length_take_of_le hmore.le, startOffset_add_room]
  change loopMeasure w''.blockOffset (left.drop fragmentLen) < loopMeasure w.blockOffset left
  rw [hfull, hlen, Nat.min_eq_right hmore.le]
  exact loopMeasure_lt hmore

/-- Write a record, cut at the ends of blocks. -/
def addRecord (w : LogWriter) (data : Bytes) : LogWriter := w.addRecordLoop data true

end LogWriter

/-! ### Framing -/

namespace Log

/-- A fragment with the zeros before it. -/
structure Fragment where
  offset : ℕ
  kind : UInt8
  payload : Bytes

/-- The padding and the fragment. -/
def Fragment.bytes (f : Fragment) : Bytes := padding f.offset ++ physicalRecord f.kind f.payload

/-- The fragments of a record of which `left` is still to be written at a block offset. -/
def fragments (begin : Bool) (offset : ℕ) (left : Bytes) : List Fragment :=
  if left.length ≤ room offset then [⟨offset, fragmentKind begin true, left⟩]
  else
    ⟨offset, fragmentKind begin false, left.take (room offset)⟩ ::
      fragments false blockSize (left.drop (room offset))
termination_by loopMeasure offset left
decreasing_by exact loopMeasure_lt (by omega)

/-- The bytes that a record takes at a block offset. -/
def framed (begin : Bool) (offset : ℕ) (left : Bytes) : Bytes :=
  (fragments begin offset left).flatMap Fragment.bytes

/-- The block offset after a record. -/
def endOffset (offset : ℕ) (left : Bytes) : ℕ :=
  if left.length ≤ room offset then startOffset offset + (headerSize + left.length)
  else endOffset blockSize (left.drop (room offset))
termination_by loopMeasure offset left
decreasing_by exact loopMeasure_lt (by omega)

theorem framed_of_le {begin : Bool} {offset : ℕ} {left : Bytes} (h : left.length ≤ room offset) :
    framed begin offset left = padding offset ++ physicalRecord (fragmentKind begin true) left := by
  rw [framed, fragments, if_pos h]
  simp [Fragment.bytes]

theorem framed_of_lt {begin : Bool} {offset : ℕ} {left : Bytes} (h : room offset < left.length) :
    framed begin offset left =
      padding offset ++ physicalRecord (fragmentKind begin false) (left.take (room offset)) ++
        framed false blockSize (left.drop (room offset)) := by
  rw [framed, fragments, if_neg (by omega)]
  simp [Fragment.bytes, framed]

/-- The first fragment of what is left, in both cases of the loop. -/
theorem framed_eq (begin : Bool) (offset : ℕ) (left : Bytes) :
    framed begin offset left =
      padding offset ++ (physicalRecord (fragmentKind begin (left.length ≤ room offset))
        (left.take (room offset)) ++
        if left.length ≤ room offset then []
        else framed false blockSize (left.drop (room offset))) := by
  split_ifs with h
  · rw [framed_of_le h, decide_eq_true h, take_of_length_le h, append_nil]
  · rw [framed_of_lt (not_le.mp h), decide_eq_false h, append_assoc]

theorem endOffset_of_le {offset : ℕ} {left : Bytes} (h : left.length ≤ room offset) :
    endOffset offset left = startOffset offset + (headerSize + left.length) := by
  rw [endOffset, if_pos h]

theorem endOffset_of_lt {offset : ℕ} {left : Bytes} (h : room offset < left.length) :
    endOffset offset left = endOffset blockSize (left.drop (room offset)) := by
  rw [endOffset, if_neg (by omega)]

/-- The offset stays in the block. -/
theorem endOffset_le (offset : ℕ) (left : Bytes) : endOffset offset left ≤ blockSize := by
  fun_induction endOffset offset left with
  | case1 offset left hle =>
    have := startOffset_add_room offset
    omega
  | case2 offset left hmore ih => exact ih

end Log

namespace LogWriter

open Log

private theorem addRecordLoop_eq (w : LogWriter) (left : Bytes) (begin : Bool) :
    w.addRecordLoop left begin =
      ⟨w.sink ++ framed begin w.blockOffset left, endOffset w.blockOffset left⟩ := by
  fun_induction addRecordLoop w left begin with
  | case1 w left begin w' fragmentLen w'' hlast =>
    have hlen : fragmentLen = min left.length (room w.blockOffset) := by
      simp only [fragmentLen, w', startBlock_eq, room]
    have hle : left.length ≤ room w.blockOffset := by omega
    rw [framed_of_le hle, endOffset_of_le hle]
    simp only [w'', emitPhysicalRecord, w', startBlock_eq, ← hlast, take_length, decide_true,
      append_assoc]
  | case2 w left begin w' fragmentLen w'' hmore ih =>
    have hlen : fragmentLen = min left.length (room w.blockOffset) := by
      simp only [fragmentLen, w', startBlock_eq, room]
    have hlt : room w.blockOffset < left.length := by omega
    have hroom : fragmentLen = room w.blockOffset := by omega
    have hfull : w''.blockOffset = blockSize := by
      simp only [w'', emitPhysicalRecord, w', startBlock_eq, hroom,
        length_take_of_le hlt.le, startOffset_add_room]
    rw [ih, hfull, framed_of_lt hlt, endOffset_of_lt hlt, hroom]
    simp only [w'', emitPhysicalRecord, w', startBlock_eq, hroom, decide_eq_false hlt.ne',
      append_assoc]

/-- What `add_record` appends, and the offset it leaves, depend on the block offset only. -/
theorem addRecord_eq (w : LogWriter) (data : Bytes) :
    w.addRecord data = ⟨w.sink ++ framed true w.blockOffset data, endOffset w.blockOffset data⟩ :=
  addRecordLoop_eq w data true

end LogWriter
end PulsearcDb
