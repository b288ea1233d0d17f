import PulsearcDb.Table.TableLayout

/-!
# The table builder in memory

`TableBuilder` (`table/table.rs`) keeps the whole file in a buffer. Its blocks have no filter and
are not compressed, and the offset of a block is the length of the buffer. Every state of it is a
state of a streaming builder (`TableBuilder.streaming`), and each operation of the one is the
operation of the other, with the same assertions.
-/

namespace PulsearcDb

/-- `struct TableBuilder`. -/
structure TableBuilder (comparator : Comparator) (blockSize restartInterval : ℕ) where
  sink : Bytes := []
  dataBlock : BlockBuilder := { blockRestartInterval := restartInterval }
  indexBlock : BlockBuilder := { blockRestartInterval := 1 }
  lastKey : Bytes := []
  numEntries : ℕ := 0
  closed : Bool := false
  pendingIndexEntry : Bool := false
  pendingHandle : BlockHandle := {}

/-- The options of a streaming builder without filter policy and compressor. -/
def plainOptions (comparator : Comparator) (blockSize restartInterval : ℕ) : TableOptions :=
  { comparator, blockSize, restartInterval }

/-- The bytes written so far. -/
def TableFileBuilder.fileSize {opts : TableOptions} (b : TableFileBuilder opts) : ℕ := b.offset

namespace TableBuilder

open Runs

variable {comparator : Comparator} {blockSize restartInterval : ℕ}

/-- An interval of zero panics. -/
def new (comparator : Comparator) (blockSize restartInterval : ℕ) :
    Option (TableBuilder comparator blockSize restartInterval) := do
  guard (1 ≤ restartInterval)
  return {}

/-- The bytes written so far. -/
def fileSize (b : TableBuilder comparator blockSize restartInterval) : ℕ := b.sink.length

/-- Append a block with its trailer. -/
def writeBlock (sink blockData : Bytes) : BlockHandle × Bytes :=
  let kind := kindNoCompression
  let crc := Crc32c.extend (Crc32c.value blockData) [kind]
  ({ offset := sink.length, size := blockData.length },
    sink ++ blockData ++ BlockTrailer.encode { kind, crc })

/-- End the data block. -/
def flush (b : TableBuilder comparator blockSize restartInterval) :
    Option (TableBuilder comparator blockSize restartInterval) := do
  guard (b.closed = false)
  if b.dataBlock.buffer = [] then return b
  else
    guard (b.pendingIndexEntry = false)
    let dataBlock := b.dataBlock.finish
    let (handle, sink) := writeBlock b.sink dataBlock.buffer
    return { b with sink, dataBlock := dataBlock.reset, pendingHandle := handle,
                    pendingIndexEntry := true }

/-- Adds the index entry that waits, if there is one, with a key made from the last key. -/
def addIndexEntry (b : TableBuilder comparator blockSize restartInterval)
    (shorten : Bytes → Bytes) : Option (TableBuilder comparator blockSize restartInterval) :=
  if b.pendingIndexEntry then do
    let lastKey := shorten b.lastKey
    let indexBlock ← b.indexBlock.add comparator.compare lastKey b.pendingHandle.encode
    return { b with lastKey, indexBlock, pendingIndexEntry := false }
  else some b

/-- The part of `add` behind the index entry. -/
def addData (b : TableBuilder comparator blockSize restartInterval) (key value : Bytes) :
    Option (TableBuilder comparator blockSize restartInterval) := do
  let dataBlock ← b.dataBlock.add comparator.compare key value
  return { b with lastKey := key, numEntries := b.numEntries + 1, dataBlock }

/-- Keys come in order; a full block is ended. -/
def add (b : TableBuilder comparator blockSize restartInterval) (key value : Bytes) :
    Option (TableBuilder comparator blockSize restartInterval) := do
  guard (b.closed = false)
  guard (b.numEntries = 0 ∨ comparator.compare key b.lastKey = .gt)
  guard (b.pendingIndexEntry = false ∨ b.dataBlock.buffer = [])
  let b ← b.addIndexEntry (comparator.findShortestSeparator · key)
  let b ← b.addData key value
  if blockSize ≤ b.dataBlock.currentSizeEstimate then b.flush else return b

/-- The index block and the footer behind it. -/
def writeIndex (b : TableBuilder comparator blockSize restartInterval) (metaindex : BlockHandle) :
    TableBuilder comparator blockSize restartInterval :=
  let (index, sink) := writeBlock b.sink b.indexBlock.finish.buffer
  { b with sink := sink ++ TableFooter.encode { metaindex, index }, closed := true }

/-- Write what follows the data blocks. -/
def finish (b : TableBuilder comparator blockSize restartInterval) :
    Option (TableBuilder comparator blockSize restartInterval) := do
  guard (b.closed = false)
  let b ← b.flush
  let metaindexBlock : BlockBuilder := { blockRestartInterval := 1 }
  let (metaindex, sink) := writeBlock b.sink metaindexBlock.finish.buffer
  let b ← { b with sink }.addIndexEntry comparator.findShortSuccessor
  return b.writeIndex metaindex

/-- The bytes of a finished table. -/
def contents (b : TableBuilder comparator blockSize restartInterval) : Option Bytes := do
  guard (b.closed = true)
  return b.sink

/-! ### The same state of the streaming builder -/

/-- **The streaming builder** that has appended what is in the buffer. -/
@[simps]
def streaming (b : TableBuilder comparator blockSize restartInterval) :
    TableFileBuilder (plainOptions comparator blockSize restartInterval) where
  file := b.sink
  offset := b.sink.length
  dataBlock := b.dataBlock
  indexBlock := b.indexBlock
  lastKey := b.lastKey
  numEntries := b.numEntries
  closed := b.closed
  pendingIndexEntry := b.pendingIndexEntry
  pendingHandle := b.pendingHandle
  filterBlock := none

theorem streaming_new : (new comparator blockSize restartInterval).map streaming =
    TableFileBuilder.withOptions (plainOptions comparator blockSize restartInterval) := by
  simp only [new, Option.bind_eq_bind, Option.map_bind]
  rfl

section

variable (b : TableBuilder comparator blockSize restartInterval)
include b

/-- A block goes to the file as it goes to the buffer. -/
theorem streaming_writeBlock (blockData : Bytes) :
    b.streaming.writeBlock blockData =
      ((writeBlock b.sink blockData).1,
        { b with sink := (writeBlock b.sink blockData).2 }.streaming) := by
  have hsink : (writeBlock b.sink blockData).2 = b.sink ++ encodeBlock none blockData :=
    List.append_assoc ..
  have hlen : (b.sink ++ encodeBlock none blockData).length =
      b.sink.length + (encodeBlock none blockData).length := List.length_append
  simp only [TableFileBuilder.writeBlock, streaming, hsink, hlen]
  rfl

theorem streaming_flush : b.flush.map streaming = b.streaming.flush := by
  simp only [flush, TableFileBuilder.flush, streaming_writeBlock, Option.bind_eq_bind]
  refine map_bind_congr fun _ => ?_
  rw [streaming_dataBlock]
  split_ifs
  · rfl
  · exact map_bind_congr fun _ => rfl

theorem streaming_addIndexEntry (shorten : Bytes → Bytes) :
    (b.addIndexEntry shorten).map streaming = b.streaming.addIndexEntry shorten := by
  simp only [addIndexEntry, TableFileBuilder.addIndexEntry, streaming_pendingIndexEntry]
  split_ifs
  · exact map_bind_congr fun _ => rfl
  · rfl

theorem streaming_addData (key value : Bytes) :
    (b.addData key value).map streaming = b.streaming.addData key value :=
  map_bind_congr fun _ => rfl

/-- **An entry is added to both builders in the same way.** -/
theorem streaming_add (key value : Bytes) :
    (b.add key value).map streaming = b.streaming.add key value := by
  refine map_bind_congr fun _ => map_bind_congr fun _ => map_bind_congr fun _ => ?_
  rw [← streaming_addIndexEntry]
  refine map_bind_comm (fun b => ?_) _
  rw [← streaming_addData]
  refine map_bind_comm (fun b => ?_) _
  by_cases hfull : blockSize ≤ b.dataBlock.currentSizeEstimate
  · rw [if_pos hfull, streaming_flush]
    exact (if_pos hfull).symm
  · rw [if_neg hfull]
    exact (if_neg hfull).symm

/-- **Both builders finish a table in the same way.** -/
theorem streaming_finish : b.finish.map streaming = b.streaming.finish := by
  refine map_bind_congr fun _ => ?_
  rw [← streaming_flush]
  refine map_bind_comm (fun b => ?_) _
  -- there is no filter block, so the metaindex block is empty here too
  have hfilt : b.streaming.writeFilterBlock = ([], b.streaming) := rfl
  simp only [hfilt, List.foldlM_nil, pure_bind, streaming_writeBlock]
  rw [← streaming_addIndexEntry]
  refine map_bind_comm (fun b => ?_) _
  simp only [streaming_writeBlock, writeIndex]
  simp only [streaming, Option.pure_def, Option.map_some, List.length_append]

end

/-! ### Tables -/

/-- The builder after these entries. -/
def addAll (comparator : Comparator) (blockSize restartInterval : ℕ)
    (entries : List Pair) : Option (TableBuilder comparator blockSize restartInterval) :=
  new comparator blockSize restartInterval >>= entries.foldlM fun b e => b.add e.1 e.2

end TableBuilder

/-- The streaming builder after these entries. -/
def TableFileBuilder.addAll (opts : TableOptions) (entries : List Pair) :
    Option (TableFileBuilder opts) :=
  withOptions opts >>= entries.foldlM fun b e => b.add e.1 e.2

theorem TableFileBuilder.map_file_build (opts : TableOptions) (entries : List Pair) :
    (addAll opts entries >>= finish).map file = buildTable opts entries := by
  simp only [addAll, buildTable, Option.bind_eq_bind, Option.bind_assoc, Function.comp_def,
    Option.map_eq_bind, Option.pure_def]

namespace TableBuilder

open Runs

variable {comparator : Comparator} {blockSize restartInterval : ℕ} {entries : List Pair}

theorem streaming_addAll (entries : List Pair) :
    (addAll comparator blockSize restartInterval entries).map streaming =
      TableFileBuilder.addAll (plainOptions comparator blockSize restartInterval) entries := by
  rw [TableFileBuilder.addAll, ← streaming_new]
  refine map_bind_comm (fun b => ?_) _
  exact map_foldlM (fun b e => streaming_add b e.1 e.2) b entries

variable (comparator blockSize restartInterval entries) in
/-- **The builders write the same file**: the sizes agree after every call, and what has been
appended to the file at the end are the contents of the buffer. Both panic or none does, and none
does with a comparator that keeps to its contract. -/
structure SameFile : Prop where
  fileSize : ∀ n,
    (addAll comparator blockSize restartInterval (entries.take n)).map TableBuilder.fileSize =
      (TableFileBuilder.addAll (plainOptions comparator blockSize restartInterval)
        (entries.take n)).map TableFileBuilder.fileSize
  contents :
    (addAll comparator blockSize restartInterval entries >>= finish >>= fun b =>
      b.contents.map fun bytes => (bytes, b.fileSize)) =
      (TableFileBuilder.addAll (plainOptions comparator blockSize restartInterval) entries >>=
        TableFileBuilder.finish).map fun b => (b.file, b.fileSize)
  isSome : comparator.Separates →
    (addAll comparator blockSize restartInterval entries >>= finish).isSome

theorem contents_of_finish {b b' : TableBuilder comparator blockSize restartInterval}
    (h : b.finish = some b') : b'.contents = some b'.sink := by
  obtain ⟨-, -, h⟩ := Option.bind_eq_some_iff.mp h
  obtain ⟨b₁, -, h⟩ := Option.bind_eq_some_iff.mp h
  obtain ⟨b₂, -, h⟩ := Option.bind_eq_some_iff.mp h
  rw [← Option.some.inj h]
  rfl

theorem streaming_build (entries : List Pair) :
    (addAll comparator blockSize restartInterval entries >>= finish).map streaming =
      TableFileBuilder.addAll (plainOptions comparator blockSize restartInterval) entries >>=
        TableFileBuilder.finish := by
  rw [← streaming_addAll]
  exact map_bind_comm streaming_finish _

/-- The builder in memory does not fail either. -/
theorem isSome_build (hint : 1 ≤ restartInterval) (hsep : comparator.Separates)
    (hsort : Increasing comparator.compare entries) :
    (addAll comparator blockSize restartInterval entries >>= finish).isSome := by
  rw [← @Option.isSome_map _ _ streaming, streaming_build,
    ← @Option.isSome_map _ _ TableFileBuilder.file, TableFileBuilder.map_file_build,
    buildTable_eq hint hsep hsort]
  rfl

/-- **The two table builders agree.** -/
theorem sameFile (hint : 1 ≤ restartInterval) (hsort : Increasing comparator.compare entries) :
    SameFile comparator blockSize restartInterval entries := by
  refine ⟨fun n => ?_, ?_, fun hsep => isSome_build hint hsep hsort⟩
  · rw [← streaming_addAll, Option.map_map]
    rfl
  · rw [← streaming_build, Option.map_map]
    rcases hbuild : addAll comparator blockSize restartInterval entries >>= finish with _ | b
    · rfl
    · obtain ⟨b₀, -, hfinish⟩ := Option.bind_eq_some_iff.mp hbuild
      rw [some_bind, contents_of_finish hfinish]
      rfl

/-- Blocks of one entry each, with a separator that is shorter than the keys around it. -/
theorem sameFile_twoBlocks :
    SameFile bytewiseComparator 1 1 [([1, 1], [5]), ([3, 1], [])] ∧
      (addAll bytewiseComparator 1 1 [([1, 1], [5]), ([3, 1], [])] >>= finish).isSome := by
  have hsame : SameFile bytewiseComparator 1 1 [([1, 1], [5]), ([3, 1], [])] :=
    sameFile (by decide) (by decide)
  exact ⟨hsame, hsame.isSome separates_bytewiseComparator⟩

end TableBuilder
end PulsearcDb
