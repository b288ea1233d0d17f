import PulsearcDb.Crc32c

/-!
# The parts of a table file

A block of a table file (`table/table.rs`) is stored as it is or compressed, with a trailer of five
bytes behind it: the kind of compression and a masked checksum (`block/block_trailer.rs`). A handle
(`block/block_handle.rs`) is the offset and the size of a stored block, and the footer
(`table/table_footer.rs`) has the handles of the metaindex block and the index block in front of a
magic number. What was written is read back: `readBlockFromFile_encodeBlock`,
`TableFooter.decodeFrom_encode`.
-/

namespace PulsearcDb

open List

/-! ### Handles, trailers and footers -/

/-- `struct BlockHandle`. -/
structure BlockHandle where
  offset : ℕ := 0
  size : ℕ := 0
  deriving DecidableEq

namespace BlockHandle

/-- Offset and size as varints. -/
def encode (h : BlockHandle) : Bytes := putVarint64 h.offset ++ putVarint64 h.size

/-- Read a handle through a cursor. -/
def decodeFrom (input : Bytes) : Result (BlockHandle × Bytes) := do
  let (offset, input) ← orCorruption "BlockHandle: missing offset" (getVarint64 input)
  let (size, input) ← orCorruption "BlockHandle: missing size" (getVarint64 input)
  return ({ offset, size }, input)

/-- The fields of a handle are `u64`. -/
def Fits (h : BlockHandle) : Prop := h.offset < 2 ^ 64 ∧ h.size < 2 ^ 64

variable {h h' : BlockHandle}

theorem decodeFrom_encode (hfits : h.Fits) (rest : Bytes) :
    decodeFrom (h.encode ++ rest) = .ok (h, rest) := by
  rw [decodeFrom, encode, append_assoc, getVarint64_putVarint64 _ hfits.1]
  simp only [orCorruption, ok_bind, getVarint64_putVarint64 _ hfits.2]
  rfl

theorem encode_inj (hfits : h.Fits) (hfits' : h'.Fits) (heq : h.encode = h'.encode) : h = h' := by
  have hdec := decodeFrom_encode hfits []
  rw [heq, decodeFrom_encode hfits' []] at hdec
  exact (congrArg Prod.fst (Except.ok.inj hdec)).symm

theorem length_encode_le (hfits : h.Fits) : h.encode.length ≤ 20 := by
  have hoff : (varintBytes h.offset).length ≤ 10 := length_varintBytes_le (by
    have := hfits.1
    omega)
  have hsize : (varintBytes h.size).length ≤ 10 := length_varintBytes_le (by
    have := hfits.2
    omega)
  rw [encode, length_append, putVarint64, putVarint64]
  omega

end BlockHandle

/-- `struct BlockTrailer`. -/
structure BlockTrailer where
  kind : UInt8
  crc : UInt32

/-- The kind of a block that is not compressed. -/
def kindNoCompression : UInt8 := 0

/-- A kind and a checksum. -/
def blockTrailerSize : ℕ := 5

namespace BlockTrailer

/-- The kind and the masked checksum. -/
def encode (t : BlockTrailer) : Bytes := t.kind :: putFixed32 (Crc32c.mask t.crc).toNat

/-- Read a trailer through a cursor. -/
def decodeFrom (input : Bytes) : Result (BlockTrailer × Bytes) := do
  let (kind, input) ← orCorruption "BlockTrailer: missing kind" (getU8 input)
  let (crcRaw, input) ← orCorruption "BlockTrailer: missing crc" (getFixed32 input)
  return ({ kind, crc := Crc32c.unmask (UInt32.ofNat crcRaw) }, input)

@[simp] theorem length_encode (t : BlockTrailer) : t.encode.length = blockTrailerSize := by
  simp [encode, blockTrailerSize]

theorem decodeFrom_encode (t : BlockTrailer) (rest : Bytes) :
    decodeFrom (t.encode ++ rest) = .ok (t, rest) := by
  have hcrc : getFixed32 (putFixed32 (Crc32c.mask t.crc).toNat ++ rest) =
      (some (Crc32c.mask t.crc).toNat, rest) :=
    getFixed_leBytes rest (Crc32c.mask t.crc).toNat_lt
  simp only [decodeFrom, encode, cons_append, getU8, orCorruption, ok_bind, hcrc]
  rw [UInt32.ofNat_toNat, Crc32c.unmask_mask]
  rfl

end BlockTrailer

/-- `struct TableFooter`. -/
structure TableFooter where
  metaindex : BlockHandle
  index : BlockHandle

namespace TableFooter

/-- The footer has 48 bytes. -/
def encodedLength : ℕ := 48

/-- The number at the end of a table. -/
def magic : ℕ := 15800726617472432983

/-- The two handles, padded, and the magic number. -/
def encode (f : TableFooter) : Bytes :=
  let handles := f.metaindex.encode ++ f.index.encode
  handles ++ (List.replicate (40 - handles.length) 0 ++ putFixed64 magic)

/-- Read a footer through a cursor. -/
def decodeFrom (input : Bytes) : Result (TableFooter × Bytes) := do
  if input.length < encodedLength then .error (.corruption "TableFooter: truncated input")
  else if decodeFixed64 ((input.take encodedLength).drop (encodedLength - 8)) ≠ magic then
    .error (.corruption "TableFooter: bad magic number")
  else
    let (metaindex, handles) ← BlockHandle.decodeFrom (input.take (encodedLength - 8))
    let (index, _) ← BlockHandle.decodeFrom handles
    return ({ metaindex, index }, input.drop encodedLength)

variable {f : TableFooter}

theorem length_encode (hmeta : f.metaindex.Fits) (hidx : f.index.Fits) :
    f.encode.length = encodedLength := by
  have hmeta := BlockHandle.length_encode_le hmeta
  have hidx := BlockHandle.length_encode_le hidx
  simp only [encode, length_append, length_replicate, length_putFixed64, encodedLength]
  omega

theorem decodeFrom_encode (hmeta : f.metaindex.Fits) (hidx : f.index.Fits) :
    decodeFrom f.encode = .ok (f, []) := by
  have hlen := length_encode hmeta hidx
  have hmetaLength := BlockHandle.length_encode_le hmeta
  have hindexLength := BlockHandle.length_encode_le hidx
  obtain ⟨pad, hpad, henc⟩ : ∃ pad : Bytes,
      (f.metaindex.encode ++ (f.index.encode ++ pad)).length = encodedLength - 8 ∧
        f.encode = f.metaindex.encode ++ (f.index.encode ++ pad) ++ putFixed64 magic := by
    refine ⟨List.replicate (40 - (f.metaindex.encode ++ f.index.encode).length) 0, ?_, ?_⟩
    · simp only [length_append, length_replicate, encodedLength]
      omega
    · simp only [encode, append_assoc]
  have hmagic : decodeFixed64 ((f.encode.take encodedLength).drop (encodedLength - 8)) = magic := by
    rw [take_of_length_le hlen.le, henc, drop_left' hpad]
    exact decodeFixed64_putFixed64 (by decide)
  have hhandles : f.encode.take (encodedLength - 8) =
      f.metaindex.encode ++ (f.index.encode ++ pad) := by rw [henc, take_left' hpad]
  rw [decodeFrom, if_neg (by omega), if_neg (not_not.mpr hmagic), hhandles,
    BlockHandle.decodeFrom_encode hmeta]
  simp only [ok_bind, BlockHandle.decodeFrom_encode hidx]
  rw [drop_of_length_le hlen.le]
  rfl

end TableFooter

/-! ### Stored blocks -/

/-- `trait Compressor`. -/
structure Compressor where
  kind : UInt8
  compress : Bytes → Option Bytes
  decompress : Bytes → Result Bytes

/-- What is documented of a compressor: its kind is not the one of blocks that are not compressed,
and what it has compressed it decompresses. -/
structure Compressor.Lawful (c : Compressor) : Prop where
  kind_ne : c.kind ≠ kindNoCompression
  decompress_eq : ∀ {data body}, c.compress data = some body → c.decompress body = .ok data

/-- The kind and the bytes that a block is stored with. -/
def stored (compressor : Option Compressor) (data : Bytes) : UInt8 × Bytes :=
  (compressor.bind fun c => (c.compress data).map fun body => (c.kind, body)).getD
    (kindNoCompression, data)

/-- A stored block with its trailer. -/
def encodeBlock (compressor : Option Compressor) (data : Bytes) : Bytes :=
  let (kind, body) := stored compressor data
  body ++ BlockTrailer.encode { kind, crc := Crc32c.extend (Crc32c.value body) [kind] }

/-- The handle of a block that is stored at an offset. -/
def handleAt (compressor : Option Compressor) (offset : ℕ) (data : Bytes) : BlockHandle :=
  { offset, size := (stored compressor data).2.length }

/-- `VecRandomAccessFile::read_at`. -/
def readAt (file : Bytes) (offset n : ℕ) : Result Bytes :=
  if 2 ^ 64 ≤ offset + n then .error (.ioError "VecRandomAccessFile: length overflow")
  else if file.length < offset + n then .error (.ioError "VecRandomAccessFile: short read")
  else .ok ((file.drop offset).take n)

/-- Read a block, check its trailer and unpack it. -/
def readBlockFromFile (file : Bytes) (handle : BlockHandle) (verify : Bool)
    (compressor : Option Compressor) : Result Bytes := do
  if 2 ^ 64 ≤ handle.size + blockTrailerSize then
    .error (.corruption "Table: block read size overflow")
  else
    let bytes ← readAt file handle.offset (handle.size + blockTrailerSize)
    let blockData := bytes.take handle.size
    let (trailer, _) ← BlockTrailer.decodeFrom (bytes.drop handle.size)
    if verify ∧ Crc32c.extend (Crc32c.value blockData) [trailer.kind] ≠ trailer.crc then
      .error (.corruption "Table: block checksum mismatch")
    else if trailer.kind = kindNoCompression then return blockData
    else match compressor with
      | some c =>
        if c.kind = trailer.kind then c.decompress blockData
        else .error (.corruption "Table: unsupported compression")
      | none => .error (.corruption "Table: unsupported compression")

variable {compressor : Option Compressor} {data : Bytes}

theorem length_encodeBlock (compressor : Option Compressor) (data : Bytes) :
    (encodeBlock compressor data).length = (stored compressor data).2.length +
      blockTrailerSize := by
  simp [encodeBlock]

theorem length_encodeBlock_of_none (h : compressor = none) (data : Bytes) :
    (encodeBlock compressor data).length = data.length + 5 := by
  rw [h, length_encodeBlock]
  rfl

/-- A block is stored as it is, or as the compressor says. -/
theorem stored_cases (compressor : Option Compressor) (data : Bytes) :
    stored compressor data = (kindNoCompression, data) ∨ ∃ c ∈ compressor, ∃ body,
      c.compress data = some body ∧ stored compressor data = (c.kind, body) := by
  cases compressor with
  | none => exact .inl rfl
  | some c =>
    rcases hbody : c.compress data with _ | body
    · exact .inl (by simp [stored, hbody])
    · exact .inr ⟨c, rfl, body, hbody, by simp [stored, hbody]⟩

/-- **A block is read back.** -/
theorem readBlockFromFile_encodeBlock (hcomp : ∀ c ∈ compressor, c.Lawful) (before behind : Bytes)
    (verify : Bool) (hsize : (before ++ (encodeBlock compressor data ++ behind)).length < 2 ^ 64) :
    readBlockFromFile (before ++ (encodeBlock compressor data ++ behind))
      (handleAt compressor before.length data) verify compressor = .ok data := by
  generalize hfile : before ++ (encodeBlock compressor data ++ behind) = file at *
  have hlen := length_encodeBlock compressor data
  have hcases := stored_cases compressor data
  rcases hstored : stored compressor data with ⟨kind, body⟩
  rw [hstored] at hlen hcases
  dsimp only at hlen
  have henc : encodeBlock compressor data =
      body ++ BlockTrailer.encode { kind, crc := Crc32c.extend (Crc32c.value body) [kind] } := by
    rw [encodeBlock, hstored]
  have hend : before.length + (body.length + blockTrailerSize) ≤ file.length := by
    rw [← hfile, length_append, length_append, hlen]
    omega
  have hread : readAt file before.length (body.length + blockTrailerSize) =
      .ok (encodeBlock compressor data) := by
    rw [readAt, if_neg (by omega), if_neg (by omega), ← hlen, ← hfile, drop_left, take_left]
  have hfits : ¬ 2 ^ 64 ≤ body.length + blockTrailerSize := by omega
  have hcrc : ¬ (verify = true ∧ Crc32c.extend (Crc32c.value body) [kind] ≠
      Crc32c.extend (Crc32c.value body) [kind]) := fun h => h.2 rfl
  have hhandle : handleAt compressor before.length data = ⟨before.length, body.length⟩ := by
    rw [handleAt, hstored]
  have htrailer := BlockTrailer.decodeFrom_encode
    { kind, crc := Crc32c.extend (Crc32c.value body) [kind] } []
  rw [append_nil] at htrailer
  rw [hhandle, readBlockFromFile]
  simp only [if_neg hfits, hread, ok_bind, henc, take_left, drop_left, htrailer, if_neg hcrc]
  rcases hcases with heq | ⟨c, hc, body', hbody, heq⟩
  · obtain ⟨rfl, rfl⟩ := Prod.mk.inj heq
    exact if_pos rfl
  · obtain ⟨rfl, rfl⟩ := Prod.mk.inj heq
    obtain rfl := Option.mem_def.mp hc
    rw [if_neg (hcomp c rfl).kind_ne]
    exact (if_pos rfl).trans ((hcomp c rfl).decompress_eq hbody)

end PulsearcDb
