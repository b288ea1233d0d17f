import PulsearcDb.Block.BlockCursor
import PulsearcDb.DbIter
import PulsearcDb.Table.TableLayout
import PulsearcDb.VersionSet.Search

/-!
# Tables

A `Table` (`table/table.rs`) is a table file that has been opened: its footer has been read, its
index block, and its filter block if there is one. A lookup goes through the index to one data
block, unless the filter says that the key is not there.

Calls that may panic or fail are in `ExceptT Status Option`, where `none` is a panic or a loop that
does not end. A table that was written by a builder is opened without an error
(`Table.exists_open_tableFile`), and `Table.Reads` says what its calls then find.
-/

namespace PulsearcDb

open IndexedBlock List

/-! ### The reader -/

/-- `struct TableFilter`. Its policy is one for internal keys. -/
structure TableFilter where
  data : Bytes
  policy : FilterPolicy

/-- Without a readable filter block every key may match. -/
def TableFilter.keyMayMatch (f : TableFilter) (blockOffset : ℕ) (key : Bytes) : Bool :=
  match FilterBlockReader.new f.data with
  | some reader => reader.keyMayMatch f.policy blockOffset key
  | none => true

/-- `struct Table`, without a block cache. -/
structure Table (c : Comparator) where
  file : Bytes
  indexBlock : Block
  metaindexOffset : ℕ
  compressor : Option Compressor
  filter : Option TableFilter

/-- A failure of any kind is a table without a filter. -/
def readFilterBlock (c : Comparator) (file : Bytes) (metaindexHandle : BlockHandle)
    (policy : FilterPolicy) (compressor : Option Compressor) : Option (Option TableFilter) :=
  match readBlockFromFile file metaindexHandle true compressor >>= Block.new with
  | .error _ => some none
  | .ok block => do
    let key := filterKey policy.name
    let iter ← ({ block } : BlockIter c.compare).seek key
    if iter.valid = false ∨ iter.key.deref ≠ key then return none
    else
      let handleValue ← iter.value
      match BlockHandle.decodeFrom handleValue with
      | .error _ => return none
      | .ok (filterHandle, _) =>
        match readBlockFromFile file filterHandle true compressor with
        | .error _ => return none
        | .ok data => return some { data, policy := internalFilterPolicy policy }

/-- The filter of a table that is opened with a policy, or without one. -/
def readFilter (c : Comparator) (file : Bytes) (metaindexHandle : BlockHandle)
    (filterPolicy : Option FilterPolicy) (compressor : Option Compressor) :
    Option (Option TableFilter) :=
  match filterPolicy with
  | some policy => readFilterBlock c file metaindexHandle policy compressor
  | none => some none

namespace Table

variable {c : Comparator}

/-- Read the footer, the index and the filter. -/
def openRandomWithOptions (c : Comparator) (file : Bytes) (fileSize : ℕ)
    (filterPolicy : Option FilterPolicy) (compressor : Option Compressor) :
    ExceptT Status Option (Table c) := do
  if fileSize < TableFooter.encodedLength then
    throw (.corruption "Table: file too small for footer")
  else
    let footerBytes ← readAt file (fileSize - TableFooter.encodedLength) TableFooter.encodedLength
    let (footer, _) ← TableFooter.decodeFrom footerBytes
    let indexBytes ← readBlockFromFile file footer.index true compressor
    let indexBlock ← Block.new indexBytes
    let filter ← readFilter c file footer.metaindex filterPolicy compressor
    return { file, indexBlock, metaindexOffset := footer.metaindex.offset, compressor, filter }

/-- A table that is opened like this has no filter and reads no compressed blocks. -/
def openRandom (c : Comparator) (file : Bytes) (fileSize : ℕ) : ExceptT Status Option (Table c) :=
  openRandomWithOptions c file fileSize none none

/-- `read_block_cached_full` without a cache. -/
def readBlock (t : Table c) (handle : BlockHandle) (verify : Bool) : Result Block := do
  Block.new (← readBlockFromFile t.file handle verify t.compressor)

/-- `struct TableIterator`. The index has no more entries than bytes. -/
def newIteratorVerify (t : Table c) (verify : Bool) :
    TwoLevelIterator (BlockIter c.compare) (BlockIter c.compare) where
  indexIter := { block := t.indexBlock }
  blockFunction handleBytes := do
    let (handle, _) ← BlockHandle.decodeFrom handleBytes
    let block ← t.readBlock handle verify
    return { block }
  rounds := t.indexBlock.bytes.length + 1

/-- The iterator that verifies checksums. -/
def newIterator (t : Table c) : TwoLevelIterator (BlockIter c.compare) (BlockIter c.compare) :=
  t.newIteratorVerify true

/-- The offset of the block that would hold a key. -/
def approximateOffsetOf (t : Table c) (key : Bytes) : Option ℕ := do
  let indexIter ← ({ block := t.indexBlock } : BlockIter c.compare).seek key
  if indexIter.valid then
    match BlockHandle.decodeFrom (← indexIter.value) with
    | .ok (handle, _) => return handle.offset
    | .error _ => return t.metaindexOffset
  else return t.metaindexOffset

/-- A round of the loop of `collect_entries_verify` over the index. -/
def collectBlock (t : Table c) (verify : Bool) (entries : List Pair)
    (indexEntry : Pair) : ExceptT Status Option (List Pair) := do
  let (handle, _) ← BlockHandle.decodeFrom indexEntry.2
  let block ← t.readBlock handle verify
  let blockIter : BlockIter c.compare := { block }
  let (blockEntries, blockIter) ← DbIterator.scanForward blockIter.rounds blockIter
  blockIter.status
  return entries ++ blockEntries

/-- All entries, by way of the index. -/
def collectEntriesVerify (t : Table c) (verify : Bool) :
    ExceptT Status Option (List Pair) := do
  let indexIter : BlockIter c.compare := { block := t.indexBlock }
  let (entries, indexIter) ← DbIterator.visit DbIterator.next (t.collectBlock verify)
    indexIter.rounds (← indexIter.seekToFirst) []
  indexIter.status
  return entries

/-- All entries, with checksums verified. -/
def collectEntries (t : Table c) : ExceptT Status Option (List Pair) :=
  t.collectEntriesVerify true

/-- The common part of `get_full` and `internal_get_full`: the iterator at the first entry that
reaches the target in the block that the index has for it, unless the filter has no `filterKey` for
this block. -/
def seekEntry (t : Table c) (target filterKey : Bytes) (verify : Bool) :
    ExceptT Status Option (Option (BlockIter c.compare)) := do
  let indexIter ← ({ block := t.indexBlock } : BlockIter c.compare).seek target
  if indexIter.valid then
    let (handle, _) ← BlockHandle.decodeFrom (← indexIter.value)
    if t.filter.all fun f => f.keyMayMatch handle.offset filterKey then
      let block ← t.readBlock handle verify
      let dataIter ← ({ block } : BlockIter c.compare).seek target
      return if dataIter.valid then some dataIter else none
    else return none
  else return none

/-- The filter is asked for the target with a dummy tag. -/
def getFull (t : Table c) (target : Bytes) (verify : Bool) :
    ExceptT Status Option (Option Bytes) := do
  match ← t.seekEntry target (target ++ List.replicate 8 0) verify with
  | none => return none
  | some dataIter =>
    if c.compare dataIter.key.deref target = .eq then return some (← dataIter.value)
    else return none

/-- `get` with checksums verified. -/
def get (t : Table c) (target : Bytes) : ExceptT Status Option (Option Bytes) :=
  t.getFull target true

/-- The version of a user key that an internal key asks for. -/
def internalGetFull (t : Table c) (target : Bytes) (verify : Bool) :
    ExceptT Status Option LookupResult := do
  if target.length < 8 then none
  else match ← t.seekEntry target target verify with
    | none => return .notFound
    | some dataIter =>
      let entryKey := dataIter.key.deref
      if entryKey.length < 8 then throw (.corruption "Table: malformed internal key")
      else if userKey entryKey ≠ userKey target then return .notFound
      else match valueTypeFromTag (keyTypeByte entryKey) with
        | some .deletion => return .deleted
        | some .value => return .found (← dataIter.value)
        | none => throw (.corruption "Table: unknown ValueType")

/-- `internal_get` with checksums verified. -/
def internalGet (t : Table c) (target : Bytes) : ExceptT Status Option LookupResult :=
  t.internalGetFull target true

end Table

/-! ### Tables that were written -/

/-- **The sizes that there is room for.** In a block lengths and offsets are `u32`, and in a file
they are `u64`. -/
@[mk_iff]
structure TableFits (opts : TableOptions) (blocks : List (List Pair)) : Prop where
  data : ∀ entries ∈ blocks, (blockBytes opts.restartInterval entries).length < 2 ^ 32
  metaindex : (metaindexBytes opts blocks).length < 2 ^ 32
  index : (indexBytes opts blocks).length < 2 ^ 32
  file : (tableFile opts blocks).length < 2 ^ 64

instance (opts : TableOptions) (blocks : List (List Pair)) :
    Decidable (TableFits opts blocks) := decidable_of_iff' _ (tableFits_iff opts blocks)

/-- **What an open table reads.** -/
structure Table.Reads (opts : TableOptions) (blocks : List (List Pair))
    (t : Table opts.comparator) : Prop where
  index : DbIterator.Sound opts.comparator.compare ((tableBlocks opts 0 blocks).map indexEntry)
    ({ block := t.indexBlock } : BlockIter opts.comparator.compare)
  length_le : (tableBlocks opts 0 blocks).length ≤ t.indexBlock.bytes.length
  block : ∀ b ∈ tableBlocks opts 0 blocks, ∃ handle block,
    BlockHandle.decodeFrom b.handle = .ok (handle, []) ∧
      (handle.offset, b.entries.map Prod.fst) ∈ filterBlocks opts 0 blocks ∧
      (∀ verify, t.readBlock handle verify = .ok block) ∧
      b.entries.length ≤ block.bytes.length ∧
      DbIterator.Sound opts.comparator.compare b.entries
        ({ block } : BlockIter opts.comparator.compare)
  filter_eq : t.filter = opts.filterPolicy.map fun policy =>
    { data := filterContents opts blocks policy, policy := internalFilterPolicy policy }

section Open

variable {opts : TableOptions} {blocks : List (List Pair)}
  {file before behind data : Bytes} {compressor : Option Compressor}

/-- The handle of a block in a file. -/
theorem fits_of_eq_append (hfile : file = before ++ (encodeBlock compressor data ++ behind))
    (hsize : file.length < 2 ^ 64) : (handleAt compressor before.length data).Fits := by
  refine fits_handleAt ?_
  rw [hfile, length_append, length_append] at hsize
  omega

theorem readBlockFromFile_of_eq_append (hc : ∀ c ∈ compressor, c.Lawful)
    (hfile : file = before ++ (encodeBlock compressor data ++ behind))
    (hsize : file.length < 2 ^ 64) (verify : Bool) :
    readBlockFromFile file (handleAt compressor before.length data) verify compressor =
      .ok data := by
  subst hfile
  exact readBlockFromFile_encodeBlock hc before behind verify hsize

theorem tableFile_eq_index : tableFile opts blocks =
    (bodyArea opts blocks ++ metaindexArea opts blocks) ++
      (encodeBlock opts.compressor (indexBytes opts blocks) ++
        (tableFooter opts blocks).encode) := by
  rw [tableFile, indexArea, append_assoc]

theorem tableFile_eq_metaindex : ∃ behind, tableFile opts blocks =
    bodyArea opts blocks ++ (encodeBlock opts.compressor (metaindexBytes opts blocks) ++ behind) :=
  ⟨_, rfl⟩

theorem tableFile_eq_filter {policy : FilterPolicy} (hpol : opts.filterPolicy = some policy) :
    ∃ behind, tableFile opts blocks = dataArea opts blocks ++
      (encodeBlock opts.compressor (filterContents opts blocks policy) ++ behind) := by
  refine ⟨metaindexArea opts blocks ++
    (indexArea opts blocks ++ (tableFooter opts blocks).encode), ?_⟩
  rw [tableFile, bodyArea, filterArea, hpol, append_assoc]
  simp

section Stored

variable (hc : ∀ c ∈ opts.compressor, c.Lawful) (hsize : (tableFile opts blocks).length < 2 ^ 64)

include hsize in
theorem fits_tableFooter :
    (tableFooter opts blocks).metaindex.Fits ∧ (tableFooter opts blocks).index.Fits := by
  obtain ⟨behind, hmeta⟩ := @tableFile_eq_metaindex opts blocks
  refine ⟨fits_of_eq_append hmeta hsize, ?_⟩
  have hidx := fits_of_eq_append tableFile_eq_index hsize
  rwa [length_append] at hidx

include hsize in
/-- The footer is at the end of the file. -/
theorem readAt_footer :
    TableFooter.encodedLength ≤ (tableFile opts blocks).length ∧
      readAt (tableFile opts blocks)
        ((tableFile opts blocks).length - TableFooter.encodedLength) TableFooter.encodedLength =
          .ok (tableFooter opts blocks).encode := by
  obtain ⟨hmeta, hidx⟩ := fits_tableFooter hsize
  have hf := TableFooter.length_encode hmeta hidx
  obtain ⟨front, hfile⟩ : ∃ front, tableFile opts blocks = front ++
    (tableFooter opts blocks).encode :=
    ⟨bodyArea opts blocks ++ (metaindexArea opts blocks ++ indexArea opts blocks),
      by simp [tableFile]⟩
  rw [hfile] at hsize ⊢
  rw [length_append, hf] at hsize ⊢
  refine ⟨Nat.le_add_left _ _, ?_⟩
  have hlen : ¬ (front ++ (tableFooter opts blocks).encode).length <
      front.length + TableFooter.encodedLength := by
    rw [length_append, hf]
    exact lt_irrefl _
  rw [Nat.add_sub_cancel, readAt, if_neg (by omega), if_neg hlen, drop_left, ← hf, take_length]

include hc hsize in
/-- The data blocks of the index are in the file. -/
theorem exists_stored {b : IndexedBlock} (hb : b ∈ tableBlocks opts 0 blocks) :
    ∃ handle, BlockHandle.decodeFrom b.handle = .ok (handle, []) ∧
      (handle.offset, b.entries.map Prod.fst) ∈ filterBlocks opts 0 blocks ∧
      ∀ verify, readBlockFromFile (tableFile opts blocks) handle verify opts.compressor =
        .ok (blockBytes opts.restartInterval b.entries) := by
  obtain ⟨before, behind, hdata, hh, hfilt⟩ := exists_of_mem_tableBlocks hb
  obtain ⟨rest, hfile⟩ : ∃ rest, tableFile opts blocks = before ++ (encodeBlock opts.compressor
      (blockBytes opts.restartInterval b.entries) ++ rest) := by
    refine ⟨behind ++ (filterArea opts blocks ++ (metaindexArea opts blocks ++
      (indexArea opts blocks ++ (tableFooter opts blocks).encode))), ?_⟩
    rw [tableFile, bodyArea, hdata, encodeEntries]
    simp only [append_assoc]
  rw [Nat.zero_add] at hh hfilt
  refine ⟨handleAt opts.compressor before.length (blockBytes opts.restartInterval b.entries), ?_,
    hfilt, fun verify => readBlockFromFile_of_eq_append hc hfile hsize verify⟩
  rw [hh, ← append_nil (BlockHandle.encode _)]
  exact BlockHandle.decodeFrom_encode (fits_of_eq_append hfile hsize) []

variable (hmetaindex : (metaindexBytes opts blocks).length < 2 ^ 32)

include hc hsize hmetaindex in
/-- The filter block is found through the metaindex. -/
theorem readFilterBlock_eq {policy : FilterPolicy} (hpol : opts.filterPolicy = some policy) :
    readFilterBlock opts.comparator (tableFile opts blocks)
      (tableFooter opts blocks).metaindex policy opts.compressor =
      some (some
        { data := filterContents opts blocks policy, policy := internalFilterPolicy policy }) := by
  obtain ⟨behind, hmeta⟩ := @tableFile_eq_metaindex opts blocks
  obtain ⟨behind', hfilt⟩ := @tableFile_eq_filter opts blocks policy hpol
  generalize hh : handleAt opts.compressor (dataArea opts blocks).length
    (filterContents opts blocks policy) = handle at *
  have hbytes : metaindexBytes opts blocks =
      blockBytes 1 [(filterKey policy.name, handle.encode)] := by
    rw [metaindexBytes, hpol, ← hh]
    rfl
  obtain ⟨block, hnew, -, hsound⟩ := @BlockIter.exists_sound opts.comparator.compare _ 1 le_rfl
    [(filterKey policy.name, handle.encode)] (hbytes ▸ hmetaindex) (pairwise_singleton _ _)
  have hread : (readBlockFromFile (tableFile opts blocks) (tableFooter opts blocks).metaindex true
      opts.compressor >>= Block.new) = .ok block := by
    rw [tableFooter, readBlockFromFile_of_eq_append hc hmeta hsize, ok_bind, hbytes, hnew]
  have hfits : handle.Fits := hh ▸ fits_of_eq_append hfilt hsize
  have hdata : readBlockFromFile (tableFile opts blocks) handle true opts.compressor =
      .ok (filterContents opts blocks policy) :=
    hh ▸ readBlockFromFile_of_eq_append hc hfilt hsize true
  obtain ⟨iter, hseek, ⟨hshows, -⟩⟩ := hsound.seek_spec (filterKey policy.name)
  have hfst : [(filterKey policy.name, handle.encode)].find? (fun e =>
      (opts.comparator.compare (filterKey policy.name) e.1).isLE) =
        some (filterKey policy.name, handle.encode) := find?_cons_of_pos Std.ReflCmp.isLE_rfl
  rw [hfst] at hshows
  obtain ⟨hv, hkey, hval⟩ := hshows
  have hdec := BlockHandle.decodeFrom_encode hfits []
  rw [append_nil] at hdec
  change ({ block } : BlockIter opts.comparator.compare).seek (filterKey policy.name) =
    some iter at hseek
  change iter.valid = true at hv
  change iter.value = some handle.encode at hval
  have hfound : ¬ (iter.valid = false ∨ iter.key.deref ≠ filterKey policy.name) := by
    rw [hv, Option.some.inj hkey]
    simp
  rw [readFilterBlock, hread]
  simp only [hseek, some_bind, if_neg hfound, hval, hdec, hdata]
  rfl

include hc hsize hmetaindex in
/-- **A table that was written is opened** when its index block is one. -/
theorem Table.openRandomWithOptions_eq {indexBlock : Block}
    (hnew : Block.new (indexBytes opts blocks) = .ok indexBlock) :
    openRandomWithOptions opts.comparator (tableFile opts blocks) (tableFile opts blocks).length
        opts.filterPolicy opts.compressor =
      pure
        { file := tableFile opts blocks
          indexBlock
          metaindexOffset := (tableFooter opts blocks).metaindex.offset
          compressor := opts.compressor
          filter := opts.filterPolicy.map fun policy =>
            { data := filterContents opts blocks policy,
              policy := internalFilterPolicy policy } } := by
  obtain ⟨hlen, hf⟩ := readAt_footer hsize
  obtain ⟨hmetaFits, hindexFits⟩ := fits_tableFooter hsize
  have hidx : readBlockFromFile (tableFile opts blocks) (tableFooter opts blocks).index true
      opts.compressor = .ok (indexBytes opts blocks) := by
    have hread := readBlockFromFile_of_eq_append hc tableFile_eq_index hsize true
    rwa [length_append] at hread
  have hfilt : readFilter opts.comparator (tableFile opts blocks)
      (tableFooter opts blocks).metaindex opts.filterPolicy opts.compressor =
        some (opts.filterPolicy.map fun policy =>
          { data := filterContents opts blocks policy,
            policy := internalFilterPolicy policy }) := by
    rcases hpol : opts.filterPolicy with _ | policy
    · rfl
    · exact readFilterBlock_eq hc hsize hmetaindex hpol
  rw [openRandomWithOptions, if_neg hlen.not_gt]
  simp only [hf, liftM_ok_bind, TableFooter.decodeFrom_encode hmetaFits hindexFits, hidx,
    hnew, hfilt, liftM_some_bind]

end Stored

section

variable (hint : 1 ≤ opts.restartInterval) (hsep : opts.comparator.Separates)
  (hc : ∀ c ∈ opts.compressor, c.Lawful)
include hint hsep hc

/-- **A table that was written is opened, and reads what was written.** -/
theorem Table.exists_open_tableFile (hsort : SortedBlocks opts.comparator blocks)
    (hfits : TableFits opts blocks) :
    ∃ t, openRandomWithOptions opts.comparator (tableFile opts blocks)
      (tableFile opts blocks).length
        opts.filterPolicy opts.compressor = pure t ∧ t.Reads opts blocks := by
  have hindexSorted : Increasing opts.comparator.compare
      ((tableBlocks opts 0 blocks).map indexEntry) :=
    pairwise_map.mpr ((key_lt_tableBlocks hsep hsort).imp And.left)
  obtain ⟨indexBlock, hnew, hlen, hsound⟩ :=
    @BlockIter.exists_sound opts.comparator.compare _ 1 le_rfl _ hfits.index hindexSorted
  rw [length_map] at hlen
  refine ⟨_, openRandomWithOptions_eq hc hfits.file hfits.metaindex hnew, ?_⟩
  refine ⟨hsound, hlen, fun b hb => ?_, rfl⟩
  have hmem := entries_mem_of_mem_tableBlocks hb
  obtain ⟨handle, hdec, hfilt, hread⟩ := exists_stored hc hfits.file hb
  obtain ⟨block, hblk, hents, hsound⟩ :=
    BlockIter.exists_sound hint (hfits.data _ hmem) (hsort.pairwise hmem)
  refine ⟨handle, block, hdec, hfilt, fun verify => ?_, hents, hsound⟩
  rw [readBlock, hread, ok_bind, hblk]

/-- A table of sorted entries is written, opened and read. -/
theorem Table.exists_open_buildTable {entries : List Pair}
    (hsort : Increasing opts.comparator.compare entries)
    (hfits : TableFits opts (cutBlocks opts entries)) :
    ∃ file t, buildTable opts entries = some file ∧
      openRandomWithOptions opts.comparator file file.length opts.filterPolicy opts.compressor =
        pure t ∧ t.Reads opts (cutBlocks opts entries) := by
  obtain ⟨t, hopen, hreads⟩ := exists_open_tableFile hint hsep hc
    (sortedBlocks_cutBlocks hsort) hfits
  exact ⟨_, t, buildTable_eq hint hsep hsort, hopen, hreads⟩

end

end Open

/-! ### Lookups by the index -/

section Lookup

variable {opts : TableOptions} {blocks : List (List Pair)} {target : Bytes}

/-- The first entry that reaches the target in the block that the index has for it. -/
def blockLookup (cmp : Compare) (blocks : List IndexedBlock) (target : Bytes) :
    Option Pair := do
  let b ← blocks.find? fun b => (cmp target b.key).isLE
  b.entries.find? fun e => (cmp target e.1).isLE

/-- No entry reaches a target behind the key of their block. -/
theorem find?_eq_none_of_key_lt {c : Comparator} {entries : List Pair} {key : Bytes}
    (hle : ∀ e ∈ entries, rank c.compare e.1 ≤ rank c.compare key)
    (hkey : (c.compare target key).isLE = false) :
    entries.find? (fun e => (c.compare target e.1).isLE) = none := by
  refine find?_eq_none.mpr fun e he htgt => Bool.eq_false_iff.mp hkey ?_
  exact rank_le_rank.mp ((rank_le_rank.mpr htgt).trans (hle e he))

/-- **One block is enough.** The first entry that reaches the target may be the first one of the
next block, when the target is between the last key of a block and its separator; such an entry is
not one that is looked for. -/
theorem filter_blockLookup (hsep : opts.comparator.Separates)
    (hsort : SortedBlocks opts.comparator blocks) {wanted : Pair → Bool}
    (hwanted : ∀ {last first : Bytes} {e : Pair},
      opts.comparator.compare last first = .lt →
      opts.comparator.compare last target = .lt →
      (opts.comparator.compare target (opts.comparator.findShortestSeparator last first)).isLE →
      (opts.comparator.compare first e.1).isLE → wanted e = false) (offset : ℕ) :
    (blockLookup opts.comparator.compare (tableBlocks opts offset blocks) target).filter wanted =
      (blocks.flatten.find? fun e => (opts.comparator.compare target e.1).isLE).filter wanted := by
  fun_induction tableBlocks opts offset blocks with
  | case1 => rfl
  | case2 offset entries =>
    have hle : ∀ e ∈ entries, rank opts.comparator.compare e.1 ≤
        rank opts.comparator.compare (lastKeyOf entries) := fun e he =>
      le_lastKeyOf (hsort.pairwise mem_cons_self) he
    have hsucc := rank_le_rank.mpr (hsep.successor (lastKeyOf entries))
    rw [flatten_singleton]
    rcases hkey : (opts.comparator.compare target
        (opts.comparator.findShortSuccessor (lastKeyOf entries))).isLE with _ | _
    · rw [find?_eq_none_of_key_lt (fun e he => (hle e he).trans hsucc) hkey]
      simp [blockLookup, hkey]
    · simp [blockLookup, hkey]
  | case3 offset entries next rest ih =>
    have hle : ∀ e ∈ entries, rank opts.comparator.compare e.1 ≤
        rank opts.comparator.compare (lastKeyOf entries) := fun e he =>
      le_lastKeyOf (hsort.pairwise mem_cons_self) he
    have hsepr := rank_le_rank.mpr (hsep.separator hsort.lastKeyOf_lt).1
    rw [flatten_cons, find?_append]
    rcases hkey : (opts.comparator.compare target
        (opts.comparator.findShortestSeparator (lastKeyOf entries)
          (firstKeyOf next))).isLE with _ | _
    · rw [find?_eq_none_of_key_lt (fun e he => (hle e he).trans hsepr) hkey, Option.none_or,
        ← ih hsort.tail]
      simp [blockLookup, hkey]
    · rcases hfind : entries.find? (fun e => (opts.comparator.compare target e.1).isLE) with _ | e
      · -- the target is behind the last key, so that no entry of the next blocks is wanted
        obtain ⟨x, hx, hlast⟩ := exists_lastKeyOf (hsort.ne_nil entries mem_cons_self)
        have hlt : opts.comparator.compare (lastKeyOf entries) target = .lt := by
          rw [hlast, ← rank_lt_rank, ← not_le, rank_le_rank]
          exact find?_eq_none.mp hfind x hx
        have hrest : ((next :: rest).flatten.find? fun e =>
            (opts.comparator.compare target e.1).isLE).filter wanted = none := by
          refine Option.filter_eq_none_iff.mpr fun e he => ?_
          obtain ⟨block, hblk, hmem⟩ := mem_flatten.mp (mem_of_find?_eq_some he)
          rw [hwanted hsort.lastKeyOf_lt hlt hkey
            (rank_le_rank.mp (hsort.tail.firstKeyOf_le hblk hmem))]
          exact Bool.false_ne_true
        rw [hfind, Option.none_or, hrest]
        simp [blockLookup, hkey, hfind]
      · simp [blockLookup, hkey, hfind]

end Lookup

/-! ### The calls on an open table -/

namespace Table

variable {c : Comparator}

/-- The filter does not rule the block out. -/
def mayHold (t : Table c) (b : IndexedBlock) (filterKey : Bytes) : Bool :=
  match BlockHandle.decodeFrom b.handle with
  | .ok (handle, _) => t.filter.all fun f => f.keyMayMatch handle.offset filterKey
  | .error _ => true

/-- What a lookup finds with the filter. -/
def filteredLookup (t : Table c) (blocks : List IndexedBlock) (target filterKey : Bytes) :
    Option Pair := do
  let b ← blocks.find? fun b => (c.compare target b.key).isLE
  if t.mayHold b filterKey then b.entries.find? fun e => (c.compare target e.1).isLE else none

/-- The iterator that a lookup ends with is at the entry. -/
def EndsAt (found : Option (BlockIter c.compare)) : Option Pair → Prop
  | none => found = none
  | some e => ∃ it, found = some it ∧ DbIterator.ShowsOk it (some e)

namespace Reads

variable {opts : TableOptions} {blocks : List (List Pair)} {t : Table opts.comparator}

section

variable (h : t.Reads opts blocks)
include h

/-- **The iterator of a table is a cursor over its entries.** -/
theorem sound_newIteratorVerify
    (hseparated : Separated opts.comparator.compare (tableBlocks opts 0 blocks)) (verify : Bool) :
    DbIterator.Sound opts.comparator.compare blocks.flatten (t.newIteratorVerify verify) := by
  rw [← @allEntries_tableBlocks opts 0 blocks]
  refine TwoLevelIterator.sound hseparated h.index (fun b hb => ?_) (Nat.lt_succ_of_le h.length_le)
  obtain ⟨handle, block, hdec, -, hread, -, hsound⟩ := h.block b hb
  exact ⟨{ block }, by simp only [hdec, hread, ok_bind]; rfl, hsound⟩

theorem collectBlock_eq {b : IndexedBlock} (hb : b ∈ tableBlocks opts 0 blocks) (verify : Bool)
    (entries : List Pair) :
    t.collectBlock verify entries b.indexEntry = pure (entries ++ b.entries) := by
  obtain ⟨handle, block, hdec, -, hread, hlen, hsound⟩ := h.block b hb
  obtain ⟨it, hscan, hstat⟩ := hsound.scanForward_eq (Nat.lt_succ_of_le hlen)
  have hrounds : ({ block } : BlockIter opts.comparator.compare).rounds =
    (List.length block.bytes).succ := rfl
  change it.status = .ok () at hstat
  simp only [collectBlock, indexEntry, hdec, hread, liftM_ok_bind, hrounds, hscan,
    liftM_some_bind,
    hstat]

/-- **All entries are collected.** -/
theorem collectEntriesVerify_eq (verify : Bool) :
    t.collectEntriesVerify verify = pure blocks.flatten := by
  have hfold : ∀ (bs : List IndexedBlock) (entries : List Pair),
      (∀ b ∈ bs, b ∈ tableBlocks opts 0 blocks) →
      (bs.map indexEntry).foldlM (t.collectBlock verify) entries =
        pure (entries ++ allEntries bs) := by
    intro bs
    induction bs with
    | nil => intro entries _; simp [allEntries]
    | cons b bs ih =>
      intro entries hbs
      obtain ⟨hb, hbs⟩ := forall_mem_cons.mp hbs
      rw [map_cons, foldlM_cons, h.collectBlock_eq hb, pure_bind, ih _ hbs]
      simp [allEntries]
  have hlen : ((tableBlocks opts 0 blocks).map indexEntry).length <
      ({ block := t.indexBlock } : BlockIter opts.comparator.compare).rounds := by
    rw [length_map]
    exact Nat.lt_succ_of_le h.length_le
  obtain ⟨it, hscan, hstat⟩ := h.index.scanForward_eq hlen
  obtain ⟨it₀, hseek, hscan⟩ := Option.bind_eq_some_iff.mp hscan
  change it.status = .ok () at hstat
  change BlockIter.seekToFirst _ = some it₀ at hseek
  simp only [collectEntriesVerify, hseek, liftM_some_bind, DbIterator.visit_eq hscan,
    hfold _ [] fun _ hb => hb, pure_bind, hstat, liftM_ok_bind, nil_append,
    allEntries_tableBlocks]

/-- **What a lookup ends with.** -/
theorem seekEntry_spec (target filterKey : Bytes) (verify : Bool) :
    ∃ found, t.seekEntry target filterKey verify = pure found ∧
      EndsAt found (t.filteredLookup (tableBlocks opts 0 blocks) target filterKey) := by
  obtain ⟨indexIter, hseek, hshows, -⟩ := h.index.seek_spec target
  change BlockIter.seek _ target = some indexIter at hseek
  have hcomp : ((fun e : Pair => (opts.comparator.compare target e.1).isLE) ∘ indexEntry) =
      fun b => (opts.comparator.compare target b.key).isLE := rfl
  rw [find?_map, hcomp] at hshows
  simp only [seekEntry, hseek, liftM_some_bind, filteredLookup]
  rcases hfind : (tableBlocks opts 0 blocks).find? _ with _ | b
  · rw [hfind] at hshows
    change indexIter.valid = false at hshows
    exact ⟨none, by simp [hshows], rfl⟩
  · rw [hfind] at hshows
    obtain ⟨hv, -, hval⟩ := hshows
    change indexIter.valid = true at hv
    change indexIter.value = some b.handle at hval
    obtain ⟨handle, block, hdec, -, hread, -, hsound⟩ := h.block b (mem_of_find?_eq_some hfind)
    have hmay : t.mayHold b filterKey =
        t.filter.all fun f => f.keyMayMatch handle.offset filterKey := by
      rw [mayHold, hdec]
    simp only [hv, hval, hdec, hread, liftM_some_bind, liftM_ok_bind, if_true, ← hmay, some_bind]
    rcases hhold : t.mayHold b filterKey with _ | _
    · exact ⟨none, rfl, rfl⟩
    · obtain ⟨dataIter, hdata, hends⟩ := hsound.seek_spec target
      change BlockIter.seek _ target = some dataIter at hdata
      refine ⟨if dataIter.valid then some dataIter else none, ?_, ?_⟩
      · rw [if_pos rfl, hdata]
        rfl
      rw [if_pos rfl]
      rcases hentry : b.entries.find? _ with _ | e
      · rw [hentry] at hends
        exact if_neg (Bool.eq_false_iff.mp hends.1)
      · rw [hentry] at hends
        exact ⟨dataIter, if_pos hends.1.1, hends⟩

/-- **`get` compares the key that a lookup ends at.** -/
theorem getFull_eq (target : Bytes) (verify : Bool) :
    t.getFull target verify = pure (((t.filteredLookup (tableBlocks opts 0 blocks) target
      (target ++ List.replicate 8 0)).filter fun e =>
        opts.comparator.compare e.1 target = .eq).map Prod.snd) := by
  obtain ⟨found, hseek, hends⟩ := h.seekEntry_spec target (target ++ List.replicate 8 0) verify
  rw [getFull, hseek, pure_bind]
  rcases hlook : t.filteredLookup (tableBlocks opts 0 blocks) target _ with _ | e
  · rw [hlook] at hends
    rw [show found = none from hends]
    rfl
  · rw [hlook] at hends
    obtain ⟨it, rfl, ⟨-, hkey, hval⟩, -⟩ := hends
    change some it.key.deref = some e.1 at hkey
    change it.value = some e.2 at hval
    simp only [Option.some.inj hkey, hval]
    by_cases heq : opts.comparator.compare e.1 target = .eq
    · rw [if_pos heq, Option.filter_some_pos (by simpa using heq)]
      rfl
    · rw [if_neg heq, Option.filter_some_neg (by simpa using heq)]
      rfl

/-- **`internal_get` compares the user key that a lookup ends at.** -/
theorem internalGetFull_eq (hkeys : ∀ entries ∈ blocks, ∀ e ∈ entries, IsInternalKey e.1)
    {target : Bytes} (htgt : 8 ≤ target.length) (verify : Bool) :
    t.internalGetFull target verify =
      pure (.ofAnswer (((t.filteredLookup (tableBlocks opts 0 blocks)
      target target).filter fun e => userKey e.1 = userKey target).map fun e => ⟨e.1, e.2⟩)) := by
  obtain ⟨found, hseek, hends⟩ := h.seekEntry_spec target target verify
  rw [internalGetFull, if_neg htgt.not_gt, hseek, pure_bind]
  rcases hlook : t.filteredLookup (tableBlocks opts 0 blocks) target target with _ | e
  · rw [hlook] at hends
    rw [show found = none from hends]
    rfl
  · have hmem : IsInternalKey e.1 := by
      obtain ⟨b, hb, hfind⟩ := Option.bind_eq_some_iff.mp hlook
      split_ifs at hfind
      exact hkeys b.entries (entries_mem_of_mem_tableBlocks (mem_of_find?_eq_some hb)) e
        (mem_of_find?_eq_some hfind)
    rw [hlook] at hends
    obtain ⟨it, rfl, ⟨-, hkey, hval⟩, -⟩ := hends
    obtain ⟨key, s, valueType, hs, hik⟩ := hmem
    change some it.key.deref = some e.1 at hkey
    change it.value = some e.2 at hval
    have hlen : ¬ e.1.length < 8 := by
      rw [hik, length_internalKey]
      omega
    have htype : keyTypeByte e.1 = valueType.toByte :=
      hik ▸ keyTypeByte_internalKey hs key valueType
    simp only [Option.some.inj hkey, if_neg hlen]
    by_cases huser : userKey e.1 = userKey target
    · rw [if_neg (not_not.mpr huser), htype, Option.filter_some_pos (by simpa using huser)]
      cases valueType with
      | deletion =>
        simp [LookupResult.ofAnswer, Entry.live, htype, valueTypeFromTag, ValueType.toByte]
      | value =>
        have hlive : (⟨e.1, e.2⟩ : Entry).live = some e.2 := by
          simp [Entry.live, htype, ValueType.toByte]
        simp only [hval, Option.map_some, LookupResult.ofAnswer, hlive]
        rfl
    · rw [if_pos huser, Option.filter_some_neg (by simpa using huser)]
      rfl

end

end Reads

end Table

end PulsearcDb
