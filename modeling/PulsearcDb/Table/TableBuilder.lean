import PulsearcDb.Block.Block
import PulsearcDb.FilterBlock
import PulsearcDb.Separators
import PulsearcDb.Table.TableFormat
import PulsearcDb.TwoLevelIter

/-!
# Table builders

`TableFileBuilder` (`table/table.rs`) collects entries in a data block and writes the block when it
has reached the block size. The index entry of a block waits until the first key of the next block
is known, since its key is a separator of the two blocks. The keys also go to the filter block,
which is written behind the data blocks and has an entry in the metaindex block.

How entries are cut into blocks is a function of the entries (`cutBlocks`), and so is the index
(`tableBlocks`): its keys separate the blocks (`separated_tableBlocks`).
-/

namespace PulsearcDb

open IndexedBlock List

/-! ### The builder -/

/-- What a table is built with. -/
structure TableOptions where
  comparator : Comparator
  blockSize : ℕ
  restartInterval : ℕ
  filterPolicy : Option FilterPolicy := none
  compressor : Option Compressor := none

/-- `struct TableFileBuilder`, on a file that takes every append. -/
structure TableFileBuilder (opts : TableOptions) where
  file : Bytes := []
  offset : ℕ := 0
  dataBlock : BlockBuilder := { blockRestartInterval := opts.restartInterval }
  indexBlock : BlockBuilder := { blockRestartInterval := 1 }
  lastKey : Bytes := []
  numEntries : ℕ := 0
  closed : Bool := false
  pendingIndexEntry : Bool := false
  pendingHandle : BlockHandle := {}
  filterBlock : Option (FilterPolicy × FilterBlockBuilder)

/-- The key of the filter block in the metaindex. -/
def filterKey (name : String) : Bytes := ("filter." ++ name).toUTF8.toList

namespace TableFileBuilder

variable {opts : TableOptions}

/-- An interval of zero panics. -/
def withOptions (opts : TableOptions) : Option (TableFileBuilder opts) := do
  guard (1 ≤ opts.restartInterval)
  return { filterBlock := opts.filterPolicy.map fun policy =>
    (internalFilterPolicy policy,
      ({} : FilterBlockBuilder).startBlock (internalFilterPolicy policy) 0) }

/-- Append a block as it is stored. -/
def writeBlock (b : TableFileBuilder opts) (blockData : Bytes) :
    BlockHandle × TableFileBuilder opts :=
  let encoded := encodeBlock opts.compressor blockData
  (handleAt opts.compressor b.offset blockData,
    { b with file := b.file ++ encoded, offset := b.offset + encoded.length })

/-- End the data block and start the filter of the next. -/
def flush (b : TableFileBuilder opts) : Option (TableFileBuilder opts) := do
  guard (b.closed = false)
  if b.dataBlock.buffer = [] then return b
  else
    guard (b.pendingIndexEntry = false)
    let (handle, b) := b.writeBlock b.dataBlock.finish.buffer
    return { b with
      dataBlock := b.dataBlock.reset
      pendingHandle := handle
      pendingIndexEntry := true
      filterBlock := b.filterBlock.map fun (policy, fb) => (policy, fb.startBlock policy b.offset) }

/-- Adds the index entry that waits, if there is one, with a key made from the last key. -/
def addIndexEntry (b : TableFileBuilder opts) (shorten : Bytes → Bytes) :
    Option (TableFileBuilder opts) :=
  if b.pendingIndexEntry then do
    let lastKey := shorten b.lastKey
    let indexBlock ← b.indexBlock.add opts.comparator.compare lastKey b.pendingHandle.encode
    return { b with lastKey, indexBlock, pendingIndexEntry := false }
  else some b

/-- The part of `add` behind the index entry. -/
def addData (b : TableFileBuilder opts) (key value : Bytes) : Option (TableFileBuilder opts) := do
  let dataBlock ← b.dataBlock.add opts.comparator.compare key value
  return { b with
    filterBlock := b.filterBlock.map fun (policy, fb) => (policy, fb.addKey key)
    lastKey := key
    numEntries := b.numEntries + 1
    dataBlock }

/-- Keys come in order; a full block is ended. -/
def add (b : TableFileBuilder opts) (key value : Bytes) : Option (TableFileBuilder opts) := do
  guard (b.closed = false)
  guard (b.numEntries = 0 ∨ opts.comparator.compare key b.lastKey = .gt)
  guard (b.pendingIndexEntry = false ∨ b.dataBlock.buffer = [])
  let b ← b.addIndexEntry (opts.comparator.findShortestSeparator · key)
  let b ← b.addData key value
  if opts.blockSize ≤ b.dataBlock.currentSizeEstimate then b.flush else return b

/-- The filter block is written in front of the metaindex, which gets an entry with its handle. -/
def writeFilterBlock (b : TableFileBuilder opts) :
    List Pair × TableFileBuilder opts :=
  match b.filterBlock, opts.filterPolicy with
  | some (policy, fb), some userPolicy =>
    let (handle, b) := b.writeBlock (fb.finish policy)
    ([(filterKey userPolicy.name, handle.encode)], b)
  | _, _ => ([], b)

/-- The filter, the metaindex, the index and the footer. -/
def finish (b : TableFileBuilder opts) : Option (TableFileBuilder opts) := do
  guard (b.closed = false)
  let b ← b.flush
  let (entries, b) := b.writeFilterBlock
  let metaindexBlock ← entries.foldlM
    (fun block e => BlockBuilder.add opts.comparator.compare block e.1 e.2)
    { blockRestartInterval := 1 }
  let (metaindex, b) := b.writeBlock metaindexBlock.finish.buffer
  let b ← b.addIndexEntry opts.comparator.findShortSuccessor
  let (index, b) := b.writeBlock b.indexBlock.finish.buffer
  let footer := TableFooter.encode { metaindex, index }
  return { b with file := b.file ++ footer, offset := b.offset + footer.length, closed := true }

end TableFileBuilder

/-- The file of a table with these entries. -/
def buildTable (opts : TableOptions) (entries : List Pair) : Option Bytes := do
  let b ← TableFileBuilder.withOptions opts
  let b ← entries.foldlM (fun b e => b.add e.1 e.2) b
  let b ← b.finish
  return b.file

/-! ### The blocks of a table -/

section Blocks

variable (opts : TableOptions)

/-- A data block as it is in the file. -/
def encodeEntries (entries : List Pair) : Bytes :=
  encodeBlock opts.compressor (blockBytes opts.restartInterval entries)

/-- An entry goes into the last block, which is closed when it has reached the block size. -/
def cutStep (s : List (List Pair) × List Pair) (e : Pair) :
    List (List Pair) × List Pair :=
  let block := s.2 ++ [e]
  if opts.blockSize ≤ (BlockBuilder.ofEntries opts.restartInterval block).currentSizeEstimate then
    (s.1 ++ [block], [])
  else (s.1, block)

/-- The closed blocks, and the last one unless it is empty. -/
def allBlocks (s : List (List Pair) × List Pair) :
    List (List Pair) :=
  if s.2 = [] then s.1 else s.1 ++ [s.2]

/-- **How the entries are cut into blocks.** -/
def cutBlocks (entries : List Pair) : List (List Pair) :=
  allBlocks (entries.foldl (cutStep opts) ([], []))

/-- The last key of a block. -/
def lastKeyOf (entries : List Pair) : Bytes := keyBefore entries entries.length

/-- The first key of a block. -/
def firstKeyOf (entries : List Pair) : Bytes := (entries.head?.map Prod.fst).getD []

/-- **The blocks with their index entries**, from an offset of the file on. -/
def tableBlocks : ℕ → List (List Pair) → List IndexedBlock
  | _, [] => []
  | offset, [entries] =>
    [{ key := opts.comparator.findShortSuccessor (lastKeyOf entries)
       handle := (handleAt opts.compressor offset
         (blockBytes opts.restartInterval entries)).encode
       entries }]
  | offset, entries :: next :: rest =>
    { key := opts.comparator.findShortestSeparator (lastKeyOf entries) (firstKeyOf next)
      handle := (handleAt opts.compressor offset (blockBytes opts.restartInterval entries)).encode
      entries } ::
    tableBlocks (offset + (encodeEntries opts entries).length) (next :: rest)

/-- The blocks as the filter block has them: their offsets and keys. -/
def filterBlocks : ℕ → List (List Pair) → List (ℕ × List Bytes)
  | _, [] => []
  | offset, entries :: rest =>
    (offset, entries.map Prod.fst) ::
      filterBlocks (offset + (encodeEntries opts entries).length) rest

end Blocks

/-! ### Keys of blocks -/

section Keys

variable {c : Comparator} {entries : List Pair} {e : Pair}

@[simp] theorem lastKeyOf_concat (entries : List Pair) (e : Pair) :
    lastKeyOf (entries ++ [e]) = e.1 := by
  rw [lastKeyOf, keyBefore, take_length]
  simp

@[simp] theorem firstKeyOf_cons (e : Pair) (entries : List Pair) :
    firstKeyOf (e :: entries) = e.1 := rfl

theorem lastKeyOf_append (before : List Pair) (hents : entries ≠ []) :
    lastKeyOf (before ++ entries) = lastKeyOf entries := by
  obtain ⟨init, e, rfl⟩ := (eq_nil_or_concat' entries).resolve_left hents
  rw [← append_assoc, lastKeyOf_concat, lastKeyOf_concat]

theorem firstKeyOf_append (hents : entries ≠ []) (behind : List Pair) :
    firstKeyOf (entries ++ behind) = firstKeyOf entries := by
  obtain ⟨e, rest, rfl⟩ := exists_cons_of_ne_nil hents
  rfl

theorem exists_lastKeyOf (hents : entries ≠ []) : ∃ e ∈ entries, lastKeyOf entries = e.1 := by
  obtain ⟨init, e, rfl⟩ := (eq_nil_or_concat' entries).resolve_left hents
  exact ⟨e, by simp, lastKeyOf_concat init e⟩

theorem exists_firstKeyOf (hents : entries ≠ []) : ∃ e ∈ entries, firstKeyOf entries = e.1 := by
  obtain ⟨e, rest, rfl⟩ := exists_cons_of_ne_nil hents
  exact ⟨e, mem_cons_self, rfl⟩

theorem le_lastKeyOf (hsort : Increasing c.compare entries) (he : e ∈ entries) :
    rank c.compare e.1 ≤ rank c.compare (lastKeyOf entries) := by
  obtain ⟨init, last, rfl⟩ := (eq_nil_or_concat' entries).resolve_left (ne_nil_of_mem he)
  rw [lastKeyOf_concat]
  rcases mem_append.mp he with he | he
  · have hlt := (pairwise_append.mp hsort).2.2 e he last (mem_singleton_self last)
    exact (rank_lt_rank.mpr hlt).le
  · rw [mem_singleton.mp he]

theorem firstKeyOf_le (hsort : Increasing c.compare entries) (he : e ∈ entries) :
    rank c.compare (firstKeyOf entries) ≤ rank c.compare e.1 := by
  obtain ⟨first, rest, rfl⟩ := exists_cons_of_ne_nil (ne_nil_of_mem he)
  rw [firstKeyOf_cons]
  rcases mem_cons.mp he with rfl | he
  · exact le_rfl
  · exact (rank_lt_rank.mpr ((pairwise_cons.mp hsort).1 e he)).le

end Keys

/-! ### The index separates the blocks -/

section Index

variable {opts : TableOptions} {blocks : List (List Pair)} {offset : ℕ}

theorem map_entries_tableBlocks (offset : ℕ) (blocks : List (List Pair)) :
    (tableBlocks opts offset blocks).map IndexedBlock.entries = blocks := by
  fun_induction tableBlocks opts offset blocks with
  | case1 => rfl
  | case2 => rfl
  | case3 offset entries next rest ih => rw [map_cons, ih]

theorem allEntries_tableBlocks (offset : ℕ) (blocks : List (List Pair)) :
    allEntries (tableBlocks opts offset blocks) = blocks.flatten := by
  rw [allEntries, flatMap_def, map_entries_tableBlocks]

theorem entries_mem_of_mem_tableBlocks {b : IndexedBlock}
    (hb : b ∈ tableBlocks opts offset blocks) :
    b.entries ∈ blocks := by
  have hmem := mem_map_of_mem (f := IndexedBlock.entries) hb
  rwa [map_entries_tableBlocks] at hmem

/-- The data area of a table. -/
def dataArea (opts : TableOptions) (blocks : List (List Pair)) : Bytes :=
  (blocks.map (encodeEntries opts)).flatten

/-- **Where a block is**: its handle has the offset at which it is in the data area. -/
theorem exists_of_mem_tableBlocks {b : IndexedBlock} (hb : b ∈ tableBlocks opts offset blocks) :
    ∃ before behind, dataArea opts blocks = before ++ (encodeEntries opts b.entries ++ behind) ∧
      b.handle = (handleAt opts.compressor (offset + before.length)
        (blockBytes opts.restartInterval b.entries)).encode ∧
      (offset + before.length, b.entries.map Prod.fst) ∈ filterBlocks opts offset blocks := by
  fun_induction tableBlocks opts offset blocks with
  | case1 => cases hb
  | case2 offset entries =>
    obtain rfl := mem_singleton.mp hb
    exact ⟨[], [], by simp [dataArea], rfl, mem_singleton_self _⟩
  | case3 offset entries next rest ih =>
    rcases mem_cons.mp hb with rfl | hb
    · exact ⟨[], dataArea opts (next :: rest), by simp [dataArea], rfl, mem_cons_self⟩
    · obtain ⟨before, behind, hdata, hh, hfilt⟩ := ih hb
      refine ⟨encodeEntries opts entries ++ before, behind, ?_, ?_, ?_⟩
      · rw [append_assoc, ← hdata]
        simp [dataArea]
      · rw [length_append, ← Nat.add_assoc, hh]
      · rw [length_append, ← Nat.add_assoc]
        exact mem_cons_of_mem _ hfilt

/-- The handle of a block that is in a file of less than `2 ^ 64` bytes. -/
theorem fits_handleAt {compressor : Option Compressor} {data : Bytes}
    (h : offset + (encodeBlock compressor data).length < 2 ^ 64) :
    (handleAt compressor offset data).Fits := by
  rw [length_encodeBlock] at h
  refine ⟨?_, ?_⟩ <;> dsimp only [handleAt] <;> omega

theorem nodup_handle_tableBlocks (hfits : offset + (dataArea opts blocks).length < 2 ^ 64) :
    ((tableBlocks opts offset blocks).map IndexedBlock.handle).Nodup := by
  fun_induction tableBlocks opts offset blocks with
  | case1 => exact nodup_nil
  | case2 => exact nodup_singleton _
  | case3 offset entries next rest ih =>
    have hlen : (dataArea opts (entries :: next :: rest)).length =
        (encodeEntries opts entries).length + (dataArea opts (next :: rest)).length := by
      simp [dataArea]
    refine nodup_cons.mpr ⟨fun hmem => ?_, ih (by omega)⟩
    obtain ⟨b, hb, hh⟩ := mem_map.mp hmem
    obtain ⟨before, behind, hdata, hh', -⟩ := exists_of_mem_tableBlocks hb
    have hend : before.length + (encodeEntries opts b.entries).length ≤
        (dataArea opts (next :: rest)).length := by
      rw [hdata, length_append, length_append]
      omega
    have hpos := length_encodeBlock opts.compressor (blockBytes opts.restartInterval entries)
    rw [hh'] at hh
    have heq := BlockHandle.encode_inj (fits_handleAt (by rw [encodeEntries] at hend; omega))
      (fits_handleAt (by rw [encodeEntries] at hlen; omega)) hh
    have hoff : offset + (encodeEntries opts entries).length + before.length = offset :=
      congrArg BlockHandle.offset heq
    rw [encodeEntries, hpos, blockTrailerSize] at hoff
    omega

/-- Blocks with entries, sorted within and among them. -/
structure SortedBlocks (c : Comparator) (blocks : List (List Pair)) : Prop where
  ne_nil : ∀ entries ∈ blocks, entries ≠ []
  sorted : Increasing c.compare blocks.flatten

namespace SortedBlocks

variable {c : Comparator} {entries next : List Pair} {rest : List (List Pair)}

theorem pairwise (h : SortedBlocks c blocks) (hmem : entries ∈ blocks) :
    Increasing c.compare entries :=
  (pairwise_flatten.mp h.sorted).1 entries hmem

theorem tail (h : SortedBlocks c (entries :: rest)) : SortedBlocks c rest :=
  ⟨fun x hx => h.ne_nil x (mem_cons_of_mem _ hx),
    (pairwise_append.mp (flatten_cons ▸ h.sorted)).2.1⟩

/-- The last key of a block is before the first key of the next one. -/
theorem lastKeyOf_lt (h : SortedBlocks c (entries :: next :: rest)) :
    c.compare (lastKeyOf entries) (firstKeyOf next) = .lt := by
  obtain ⟨x, hx, hlast⟩ := exists_lastKeyOf (h.ne_nil entries mem_cons_self)
  obtain ⟨y, hy, hfst⟩ := exists_firstKeyOf (h.ne_nil next (by simp))
  have hbefore := (pairwise_cons.mp (pairwise_flatten.mp h.sorted).2).1 next (by simp)
  rw [hlast, hfst]
  exact hbefore x hx y hy

/-- The first key of the blocks. -/
theorem firstKeyOf_le (h : SortedBlocks c (entries :: rest)) {block : List Pair}
    (hblk : block ∈ entries :: rest) {e : Pair} (he : e ∈ block) :
    rank c.compare (firstKeyOf entries) ≤ rank c.compare e.1 := by
  have hmem : e ∈ (entries :: rest).flatten := mem_flatten.mpr ⟨block, hblk, he⟩
  have hle := PulsearcDb.firstKeyOf_le h.sorted hmem
  obtain ⟨x, tail, rfl⟩ := exists_cons_of_ne_nil (h.ne_nil entries mem_cons_self)
  exact hle

end SortedBlocks

variable (hsep : opts.comparator.Separates) (hsort : SortedBlocks opts.comparator blocks)
include hsep hsort

/-- The key of a block is not before its entries. -/
theorem le_key_tableBlocks : ∀ b ∈ tableBlocks opts offset blocks, ∀ e ∈ b.entries,
    rank opts.comparator.compare e.1 ≤ rank opts.comparator.compare b.key := by
  fun_induction tableBlocks opts offset blocks with
  | case1 => intro b hb; cases hb
  | case2 offset entries =>
    intro b hb e he
    obtain rfl := mem_singleton.mp hb
    exact (le_lastKeyOf (hsort.pairwise mem_cons_self) he).trans
      (rank_le_rank.mpr (hsep.successor _))
  | case3 offset entries next rest ih =>
    intro b hb e he
    rcases mem_cons.mp hb with rfl | hb
    · exact (le_lastKeyOf (hsort.pairwise mem_cons_self) he).trans
        (rank_le_rank.mpr (hsep.separator hsort.lastKeyOf_lt).1)
    · exact ih hsort.tail b hb e he

/-- The key of a block is before the keys and the entries of the blocks behind. -/
theorem key_lt_tableBlocks : (tableBlocks opts offset blocks).Pairwise fun a b =>
    opts.comparator.compare a.key b.key = .lt ∧
      ∀ e ∈ b.entries, opts.comparator.compare a.key e.1 = .lt := by
  fun_induction tableBlocks opts offset blocks with
  | case1 => exact List.Pairwise.nil
  | case2 => exact pairwise_singleton _ _
  | case3 offset entries next rest ih =>
    refine pairwise_cons.mpr ⟨fun b hb => ?_, ih hsort.tail⟩
    have hkey := rank_lt_rank.mpr (hsep.separator hsort.lastKeyOf_lt).2
    have hmem := entries_mem_of_mem_tableBlocks hb
    have hents : ∀ e ∈ b.entries, rank opts.comparator.compare
        (opts.comparator.findShortestSeparator (lastKeyOf entries) (firstKeyOf next)) <
          rank opts.comparator.compare e.1 := fun e he =>
      hkey.trans_le (hsort.tail.firstKeyOf_le hmem he)
    obtain ⟨e, he⟩ := exists_mem_of_ne_nil _ (hsort.tail.ne_nil _ hmem)
    have hle := le_key_tableBlocks hsep hsort.tail b hb e he
    exact ⟨rank_lt_rank.mp ((hents e he).trans_le hle), fun e he => rank_lt_rank.mp (hents e he)⟩

/-- **The index separates the blocks.** -/
theorem separated_tableBlocks (hfits : offset + (dataArea opts blocks).length < 2 ^ 64) :
    Separated opts.comparator.compare (tableBlocks opts offset blocks) where
  sorted _ hb := hsort.pairwise (entries_mem_of_mem_tableBlocks hb)
  le_key b hb e he := rank_le_rank.mp (le_key_tableBlocks hsep hsort b hb e he)
  key_lt := key_lt_tableBlocks hsep hsort
  nodup := nodup_handle_tableBlocks hfits

end Index

/-! ### The index as it is written -/

section Written

variable {opts : TableOptions} {offset : ℕ} {entries entries' : List Pair}
  {blocks : List (List Pair)}

theorem tableBlocks_cons (hblks : blocks ≠ []) :
    tableBlocks opts offset (entries :: blocks) =
      { key := opts.comparator.findShortestSeparator (lastKeyOf entries)
          (firstKeyOf (blocks.headD []))
        handle := (handleAt opts.compressor offset (blockBytes opts.restartInterval entries)).encode
        entries } ::
      tableBlocks opts (offset + (encodeEntries opts entries).length) blocks := by
  obtain ⟨next, rest, rfl⟩ := exists_cons_of_ne_nil hblks
  rw [tableBlocks]
  rfl

theorem tableBlocks_ne_nil (hblks : blocks ≠ []) : tableBlocks opts offset blocks ≠ [] := by
  intro hnil
  rw [← @map_entries_tableBlocks opts offset blocks, hnil] at hblks
  exact hblks rfl

/-- The index entries that are written when a block of the table is open: all but its own. -/
def indexSoFar (opts : TableOptions) (offset : ℕ) (blocks : List (List Pair)) :
    List IndexedBlock := (tableBlocks opts offset blocks).dropLast

theorem indexSoFar_cons (hblks : blocks ≠ []) :
    indexSoFar opts offset (entries :: blocks) =
      { key := opts.comparator.findShortestSeparator (lastKeyOf entries)
          (firstKeyOf (blocks.headD []))
        handle := (handleAt opts.compressor offset (blockBytes opts.restartInterval entries)).encode
        entries } ::
      indexSoFar opts (offset + (encodeEntries opts entries).length) blocks := by
  rw [indexSoFar, tableBlocks_cons hblks, dropLast_cons_of_ne_nil (tableBlocks_ne_nil hblks)]
  rfl

/-- The index only depends on the first key of the open block. -/
theorem indexSoFar_congr (blocks : List (List Pair))
    (hfst : firstKeyOf entries = firstKeyOf entries') (offset : ℕ) :
    indexSoFar opts offset (blocks ++ [entries]) =
      indexSoFar opts offset (blocks ++ [entries']) := by
  induction blocks generalizing offset with
  | nil => rfl
  | cons block blocks ih =>
    have hhead : firstKeyOf ((blocks ++ [entries]).headD []) =
        firstKeyOf ((blocks ++ [entries']).headD []) := by
      cases blocks with
      | nil => exact hfst
      | cons _ _ => rfl
    rw [cons_append, cons_append, indexSoFar_cons (by simp), indexSoFar_cons (by simp), hhead, ih]

private theorem add_length_dataArea_cons (block : List Pair)
    (blocks : List (List Pair)) (offset : ℕ) :
    offset + (dataArea opts (block :: blocks)).length =
      offset + (encodeEntries opts block).length + (dataArea opts blocks).length := by
  simp [dataArea, Nat.add_assoc]

/-- The index entry of a block is written with the first entry of the next one. -/
theorem indexSoFar_concat (blocks : List (List Pair)) (entries entries' : List Pair) (offset : ℕ) :
    indexSoFar opts offset (blocks ++ [entries] ++ [entries']) =
      indexSoFar opts offset (blocks ++ [entries]) ++
        [{ key := opts.comparator.findShortestSeparator (lastKeyOf entries) (firstKeyOf entries')
           handle := (handleAt opts.compressor (offset + (dataArea opts blocks).length)
             (blockBytes opts.restartInterval entries)).encode
           entries }] := by
  induction blocks generalizing offset with
  | nil => simp [indexSoFar, tableBlocks, dataArea]
  | cons block blocks ih =>
    have hhead : (blocks ++ [entries] ++ [entries']).headD [] = (blocks ++ [entries]).headD [] := by
      cases blocks <;> rfl
    rw [cons_append, cons_append, indexSoFar_cons (by simp), indexSoFar_cons (by simp),
      hhead, ih, add_length_dataArea_cons]
    rfl

/-- The last index entry is written when the table is finished. -/
theorem tableBlocks_concat (blocks : List (List Pair)) (entries : List Pair) (offset : ℕ) :
    tableBlocks opts offset (blocks ++ [entries]) =
      indexSoFar opts offset (blocks ++ [entries]) ++
        [{ key := opts.comparator.findShortSuccessor (lastKeyOf entries)
           handle := (handleAt opts.compressor (offset + (dataArea opts blocks).length)
             (blockBytes opts.restartInterval entries)).encode
           entries }] := by
  induction blocks generalizing offset with
  | nil => simp [indexSoFar, tableBlocks, dataArea]
  | cons block blocks ih =>
    rw [cons_append, tableBlocks_cons (by simp), indexSoFar_cons (by simp), ih,
      add_length_dataArea_cons]
    rfl

end Written

end PulsearcDb
