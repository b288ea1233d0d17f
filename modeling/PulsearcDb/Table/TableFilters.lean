import PulsearcDb.Table.RoundTrip
import Mathlib.Data.Finset.Max

/-!
# Lookups through the filter of a table

The filter of a table is asked before a data block is read. The writer makes the filters of a slot
from the stored keys without their last eight bytes (`InternalFilterPolicy`), and the reader asks
for the target without its last eight bytes.

For tables of internal keys both are the user key, so a lookup with the filter finds what it finds
without it (`filterAgrees_of_honest`), as long as the filter block is smaller than 4 GiB: its
offsets are `u32`. `Table::get` appends eight bytes to its target, which are then stripped, while
the stored key is stripped of bytes of its own. So `get` finds every key, for every policy, exactly
if no stored key has eight bytes or more (`getsAll_of_short`, `not_getsAll_keyMarker`).
-/

namespace PulsearcDb

open IndexedBlock List

namespace Table.Reads

variable {opts : TableOptions} {blocks : List (List Pair)} {t : Table opts.comparator}
  {policy : FilterPolicy} {b : IndexedBlock} {e : Pair}

/-- The blocks of the filter block. -/
theorem of_mem_filterBlocks {offset : ℕ} {block : ℕ × List Bytes}
    (h : block ∈ filterBlocks opts offset blocks) :
    block.1 ≤ offset + (dataArea opts blocks).length ∧
      ∃ entries ∈ blocks, block.2 = entries.map Prod.fst := by
  induction blocks generalizing offset with
  | nil => cases h
  | cons entries blocks ih =>
    have hlen : (dataArea opts (entries :: blocks)).length =
        (encodeEntries opts entries).length + (dataArea opts blocks).length := by
      simp [dataArea]
    rcases mem_cons.mp h with rfl | h
    · exact ⟨Nat.le_add_right _ _, entries, mem_cons_self, rfl⟩
    · obtain ⟨hle, entries', hmem, hkeys⟩ := ih h
      exact ⟨by omega, entries', mem_cons_of_mem _ hmem, hkeys⟩

section

variable (h : t.Reads opts blocks) (hpol : opts.filterPolicy = some policy)
include h hpol

/-- The reader of the filter block is asked for the slot of a block. -/
theorem mayHold_of_new {r : FilterBlockReader}
    (hnew : FilterBlockReader.new (filterContents opts blocks policy) = some r)
    {handle : BlockHandle} (hdec : BlockHandle.decodeFrom b.handle = .ok (handle, []))
    (filterKey : Bytes) :
    t.mayHold b filterKey =
      r.keyMayMatch (internalFilterPolicy policy) handle.offset filterKey := by
  rw [mayHold, hdec]
  simp only [h.filter_eq, hpol, Option.map_some, Option.all_some, TableFilter.keyMayMatch, hnew]

/-- **The filter of a block**: the policy is asked for the filter of all keys of its slot. -/
theorem mayHold_eq (hfilt : (filterContents opts blocks policy).length < 2 ^ 32)
    (hsort : SortedBlocks opts.comparator blocks) (hb : b ∈ tableBlocks opts 0 blocks)
    (filterKey : Bytes) :
    ∃ keys : List Bytes, (∀ e ∈ b.entries, e.1 ∈ keys) ∧
      (∀ key ∈ keys, ∃ e ∈ blocks.flatten, e.1 = key) ∧
      t.mayHold b filterKey =
        if policy.createFilter (keys.map userKeyOf) = [] then false
        else policy.keyMayMatch (userKeyOf filterKey)
          (policy.createFilter (keys.map userKeyOf)) := by
  obtain ⟨handle, block, hdec, hmem, -⟩ := h.block b hb
  have hkeys : b.entries.map Prod.fst ≠ [] := by
    simpa using hsort.ne_nil _ (entries_mem_of_mem_tableBlocks hb)
  have hle : ∀ block ∈ filterBlocks opts 0 blocks,
      block.1 / filterBase ≤ (dataArea opts blocks).length / filterBase := fun block hblk => by
    have hoff := (of_mem_filterBlocks hblk).1
    rw [Nat.zero_add] at hoff
    exact Nat.div_le_div_right hoff
  have hsize : (filtersBefore (internalFilterPolicy policy) (filterBlocks opts 0 blocks)
      (FilterBlockBuilder.filterCount (filterBlocks opts 0 blocks)
        ((dataArea opts blocks).length / filterBase))).length < 2 ^ 32 := by
    rw [filterContents, FilterBlockBuilder.contents, length_append] at hfilt
    omega
  obtain ⟨r, hnew, hread⟩ := FilterBlockReader.exists_reader_contents hle hsize
  refine ⟨slotKeys (filterBlocks opts 0 blocks) (handle.offset / filterBase), fun e he => ?_,
    fun key hkey => ?_, ?_⟩
  · exact mem_slotKeys hmem (mem_map_of_mem he)
  · obtain ⟨block, hblk, hkey⟩ := mem_flatMap.mp hkey
    obtain ⟨-, entries, hents, heq⟩ := of_mem_filterBlocks (mem_of_mem_filter hblk)
    rw [heq] at hkey
    obtain ⟨e, he, rfl⟩ := mem_map.mp hkey
    exact ⟨e, mem_flatten.mpr ⟨entries, hents, he⟩, rfl⟩
  · rw [h.mayHold_of_new hpol hnew hdec, hread _ hmem hkeys]
    rfl

/-- A block with a key that the writer and the reader strip to the same bytes is not ruled out. -/
theorem mayHold_of_mem (hfilt : (filterContents opts blocks policy).length < 2 ^ 32)
    (hh : policy.Honest) (hn : policy.NonEmpty)
    (hsort : SortedBlocks opts.comparator blocks) (hb : b ∈ tableBlocks opts 0 blocks)
    (he : e ∈ b.entries) {filterKey : Bytes} (hkey : userKeyOf e.1 = userKeyOf filterKey) :
    t.mayHold b filterKey = true := by
  obtain ⟨keys, hkeys, -, hmay⟩ := h.mayHold_eq hpol hfilt hsort hb filterKey
  have hmem : userKeyOf filterKey ∈ keys.map userKeyOf := hkey ▸ mem_map_of_mem (hkeys e he)
  rw [hmay, if_neg (hn _ (ne_nil_of_mem hmem))]
  exact hh _ _ hmem

end

/-- The filter hides nothing that is looked for when it does not rule out blocks with it. -/
theorem filter_filteredLookup {wanted : Pair → Bool} {target filterKey : Bytes}
    (hw : ∀ b ∈ tableBlocks opts 0 blocks, ∀ e ∈ b.entries, wanted e = true →
      t.mayHold b filterKey = true) :
    (t.filteredLookup (tableBlocks opts 0 blocks) target filterKey).filter wanted =
      (blockLookup opts.comparator.compare (tableBlocks opts 0 blocks) target).filter wanted := by
  rw [filteredLookup, blockLookup]
  rcases hfind : (tableBlocks opts 0 blocks).find? _ with _ | b
  · rfl
  · simp only [some_bind]
    split_ifs with hmay
    · rfl
    · refine (Option.filter_eq_none_iff.mpr fun e he hwant => hmay ?_).symm
      exact hw b (mem_of_find?_eq_some hfind) e (mem_of_find?_eq_some he) hwant

end Table.Reads

/-- Nothing is found when the filter rules out every block. -/
theorem Table.filteredLookup_eq_none {c : Comparator} {t : Table c} {blocks : List IndexedBlock}
    {target filterKey : Bytes} (h : ∀ b ∈ blocks, t.mayHold b filterKey = false) :
    t.filteredLookup blocks target filterKey = none := by
  rw [filteredLookup]
  rcases hfind : blocks.find? _ with _ | b
  · rfl
  · exact if_neg (Bool.eq_false_iff.mp (h b (mem_of_find?_eq_some hfind)))

/-! ### Internal keys -/

/-- Lookups of internal keys find the same in a table with a filter and in one without it. -/
def FilterAgrees (c : Comparator) (blockSize restartInterval : ℕ) (compressor : Option Compressor)
    (policy : FilterPolicy) (entries : List Pair) : Prop :=
  ∃ file t filteredFile filtered,
    buildTable (internalTableOptions c blockSize restartInterval none compressor) entries =
        some file ∧
      Table.openRandomWithOptions (internalKeyComparator c) file file.length none compressor =
        pure t ∧
      buildTable
        (internalTableOptions c blockSize restartInterval (some policy) compressor) entries =
        some filteredFile ∧
      Table.openRandomWithOptions (internalKeyComparator c) filteredFile filteredFile.length
        (some policy) compressor = pure filtered ∧
      ∀ target, filtered.internalGet target = t.internalGet target

section InternalKeys

variable {c : Comparator} {blockSize restartInterval : ℕ} {compressor : Option Compressor}
  {policy : FilterPolicy} {entries : List Pair}

theorem userKeyOf_eq {ik : Bytes} (h : 8 ≤ ik.length) : userKeyOf ik = userKey ik := if_pos h

/-- **The filter of an honest policy hides no user key.** -/
theorem filterAgrees_of_honest (hc : c.Separates) (hint : 1 ≤ restartInterval)
    (hcomp : ∀ k ∈ compressor, k.Lawful) (hh : policy.Honest)
    (hn : policy.NonEmpty) (hkeys : ∀ e ∈ entries, IsInternalKey e.1)
    (hsort : Increasing (icmp c) entries)
    (hfits : TableFits (internalTableOptions c blockSize restartInterval none compressor)
      (cutBlocks (internalTableOptions c blockSize restartInterval none compressor) entries))
    (hfiltered :
      TableFits (internalTableOptions c blockSize restartInterval (some policy) compressor)
      (cutBlocks
        (internalTableOptions c blockSize restartInterval (some policy) compressor) entries))
    (hfilt : (filterContents
      (internalTableOptions c blockSize restartInterval (some policy) compressor)
      (cutBlocks
        (internalTableOptions c blockSize restartInterval (some policy) compressor) entries)
      policy).length < 2 ^ 32) :
    FilterAgrees c blockSize restartInterval compressor policy entries := by
  have hflat : ∀ filterPolicy, ∀ e ∈ (cutBlocks (internalTableOptions c blockSize restartInterval
      filterPolicy compressor) entries).flatten, IsInternalKey e.1 := fun filterPolicy => by
    rwa [flatten_cutBlocks]
  have hblks : ∀ filterPolicy, SortedBlocks (internalKeyComparator c) (cutBlocks
      (internalTableOptions c blockSize restartInterval filterPolicy compressor) entries) :=
    fun filterPolicy => @sortedBlocks_cutBlocks
      (internalTableOptions c blockSize restartInterval filterPolicy compressor) entries hsort
  obtain ⟨file, t, hbuild, hopen, hr⟩ := Table.exists_open_buildTable hint
    hc.internalKeyComparator hcomp hsort hfits
  obtain ⟨file', t', hbuild', hopen', hr'⟩ := Table.exists_open_buildTable hint
    hc.internalKeyComparator hcomp hsort hfiltered
  refine ⟨file, t, file', t', hbuild, hopen, hbuild', hopen', fun target => ?_⟩
  rcases lt_or_ge target.length 8 with hshort | htgt
  · -- both lookups fail their assertion
    exact (if_pos hshort).trans (if_pos hshort).symm
  have hplain := hr.internalGet_eq hc (hblks none) (hflat none) htgt
    (congrArg (Option.filter _) (Table.Reads.filteredLookup_eq hr.filter_eq _ _ _))
  have hw := hr'.internalGet_eq hc (hblks (some policy)) (hflat (some policy)) htgt
    (Table.Reads.filter_filteredLookup fun b hb e he huser => by
      have hkey : 8 ≤ e.1.length := by
        obtain ⟨key, s, valueType, -, hik⟩ := hflat (some policy) e
          (mem_flatten.mpr ⟨b.entries, entries_mem_of_mem_tableBlocks hb, he⟩)
        rw [hik, length_internalKey]
        omega
      refine hr'.mayHold_of_mem rfl hfilt hh hn (hblks (some policy)) hb he ?_
      rw [userKeyOf_eq hkey, userKeyOf_eq htgt]
      exact of_decide_eq_true huser)
  rw [hplain, hw, flatten_cutBlocks, flatten_cutBlocks]

/-- **Lookups through a Bloom filter** find what lookups without one do. -/
theorem filterAgrees_bloom (hc : c.Separates) (hint : 1 ≤ restartInterval)
    (hcomp : ∀ k ∈ compressor, k.Lawful) (bitsPerKey : ℕ)
    (hkeys : ∀ e ∈ entries, IsInternalKey e.1)
    (hsort : Increasing (icmp c) entries)
    (hfits : TableFits (internalTableOptions c blockSize restartInterval none compressor)
      (cutBlocks (internalTableOptions c blockSize restartInterval none compressor) entries))
    (hfiltered : TableFits
      (internalTableOptions c blockSize restartInterval
        (some (bloomFilterPolicy bitsPerKey)) compressor)
      (cutBlocks (internalTableOptions c blockSize restartInterval
        (some (bloomFilterPolicy bitsPerKey)) compressor) entries))
    (hfilt : (filterContents
      (internalTableOptions c blockSize restartInterval
        (some (bloomFilterPolicy bitsPerKey)) compressor)
      (cutBlocks (internalTableOptions c blockSize restartInterval
        (some (bloomFilterPolicy bitsPerKey)) compressor) entries)
      (bloomFilterPolicy bitsPerKey)).length < 2 ^ 32) :
    FilterAgrees c blockSize restartInterval compressor (bloomFilterPolicy bitsPerKey) entries :=
  filterAgrees_of_honest hc hint hcomp (honest_bloomFilterPolicy bitsPerKey)
    (nonEmpty_bloomFilterPolicy bitsPerKey) hkeys hsort hfits hfiltered hfilt

/-- A value and a deletion in two blocks, with ten bits for a key. -/
theorem filterAgrees_bloom_two : FilterAgrees bytewiseComparator 1 1 none (bloomFilterPolicy 10)
    [(internalKey [97] 2 .value, [1]), (internalKey [98] 1 .deletion, [])] := by
  refine filterAgrees_bloom separates_bytewiseComparator le_rfl (fun k hk => by cases hk) 10 ?_
    (by decide +kernel) ?_ ?_ (by decide +kernel)
  · intro e he
    rcases mem_cons.mp he with rfl | he
    · exact ⟨[97], 2, .value, by decide, rfl⟩
    · rw [mem_singleton.mp he]
      exact ⟨[98], 1, .deletion, by decide, rfl⟩
  · decide +kernel
  · decide +kernel

end InternalKeys

/-! ### A filter block of more than 4 GiB -/

section LongFilter

open BloomFilterPolicy FilterBlockBuilder

/-- Options with `2 ^ 35` bits for a key. -/
abbrev longFilterOptions : TableOptions :=
  internalTableOptions bytewiseComparator 4096 16 (some (bloomFilterPolicy (2 ^ 35))) none

/-- An entry with an empty user key. -/
abbrev longFilterEntry : Pair := (internalKey [] 1 .value, [])

/-- The filters of a table of one entry. -/
theorem filtersBefore_singleton (opts : TableOptions) (policy : FilterPolicy) (e : Pair) :
    filtersBefore (internalFilterPolicy policy) (filterBlocks opts 0 [[e]]) 1 =
      policy.createFilter [userKeyOf e.1] := by
  have hkeys : slotKeys [(0, [e.1])] 0 = [e.1] :=
    (@slotKeys_concat [] (0, [e.1]) 0).trans (if_pos (Nat.zero_div _))
  change filtersBefore _ [(0, [e.1])] 1 = _
  rw [filtersBefore_succ, slotFilter, hkeys, if_neg (cons_ne_nil _ _)]
  rfl

/-- The only filter: more than `2 ^ 32` bytes, of which the second to the ninth are zero. -/
theorem exists_longFilter : ∃ filter : Bytes,
    filtersBefore (internalFilterPolicy (bloomFilterPolicy (2 ^ 35)))
        (filterBlocks longFilterOptions 0 [[longFilterEntry]]) 1 = filter ∧
      filter.length = 2 ^ 32 + 1 ∧ ∀ i, 1 ≤ i → i ≤ 8 → filter.getD i 0 = 0 := by
  have huser : userKeyOf longFilterEntry.1 = [] := by decide
  have hfilt : filtersBefore (internalFilterPolicy (bloomFilterPolicy (2 ^ 35)))
      (filterBlocks longFilterOptions 0 [[longFilterEntry]]) 1 = createFilter (2 ^ 35) [[]] := by
    rw [filtersBefore_singleton, huser, bloomFilterPolicy]
  have hlen : arrayLength (2 ^ 35) [[]] = 2 ^ 32 := by decide +kernel
  refine ⟨createFilter (2 ^ 35) [[]], hfilt, by rw [length_createFilter, hlen], ?_⟩
  intro i hlo hhi
  have hprobes : ∀ p ∈ bitPositions (k (2 ^ 35)) (arrayLength (2 ^ 35) [[]] * 8) [],
      p / 8 = 0 ∨ 8 < p / 8 := by decide +kernel
  refine getD_createFilter_singleton (by omega) fun p hp => ?_
  rcases hprobes p hp with hzero | hlt <;> omega

/-- The filter block of the table. -/
theorem filterContents_longFilter :
    filterContents longFilterOptions [[longFilterEntry]] (bloomFilterPolicy (2 ^ 35)) =
      contents (internalFilterPolicy (bloomFilterPolicy (2 ^ 35)))
        (filterBlocks longFilterOptions 0 [[longFilterEntry]]) 1 := by
  have hslot : (dataArea longFilterOptions [[longFilterEntry]]).length / filterBase = 0 := by
    decide +kernel
  have hcnt : filterCount (filterBlocks longFilterOptions 0 [[longFilterEntry]]) 0 = 1 := rfl
  rw [filterContents, hslot, hcnt]

/-- The reader takes zero bytes of the filter for its offsets, and sees a filter without bytes. -/
theorem longFilter_keyMayMatch : ∃ r,
    FilterBlockReader.new (filterContents longFilterOptions [[longFilterEntry]]
        (bloomFilterPolicy (2 ^ 35))) = some r ∧
      ∀ key, r.keyMayMatch (internalFilterPolicy (bloomFilterPolicy (2 ^ 35))) 0 key = false := by
  obtain ⟨filter, hfilt, hlen, hzero⟩ := exists_longFilter
  obtain ⟨behind, hfront⟩ : ∃ behind, contents (internalFilterPolicy (bloomFilterPolicy (2 ^ 35)))
      (filterBlocks longFilterOptions 0 [[longFilterEntry]]) 1 = filter ++ behind :=
    ⟨_, by rw [contents, hfilt]⟩
  have hoff : ∀ i ≤ 1, decodeFixed32 ((filter ++ behind).drop (1 + i * 4)) = 0 := fun i hi => by
    refine decodeFixed32_drop_eq_zero (by rw [length_append]; omega) fun j hlo hhi => ?_
    rw [getD_append _ _ _ _ (by omega)]
    exact hzero j (by omega) (by omega)
  rw [filterContents_longFilter]
  refine ⟨_, FilterBlockReader.new_contents_mod, fun key => ?_⟩
  rw [hfilt, hlen, hfront, FilterBlockReader.keyMayMatch]
  have hstart : (2 ^ 32 + 1) % 2 ^ 32 = 1 := by norm_num
  have hfilters : (2 ^ 32 + 1 + 1 * 4 - 1) / 4 = 2 ^ 30 + 1 := by norm_num
  simp only [FilterBlockReader.offsetAt, hstart, hfilters, Nat.zero_shiftRight,
    hoff 0 (Nat.zero_le 1), hoff (0 + 1) le_rfl]
  norm_num

/-- A table with a filter block of a few GiB has room for its offsets. -/
theorem fits_of_filterContents {opts : TableOptions} {policy : FilterPolicy}
    {blocks : List (List Pair)} (hpol : opts.filterPolicy = some policy)
    (hcomp : opts.compressor = none)
    (hdata : ∀ entries ∈ blocks, (blockBytes opts.restartInterval entries).length < 2 ^ 32)
    (hidx : (indexBytes opts blocks).length < 2 ^ 32)
    (harea : (dataArea opts blocks).length < 2 ^ 32)
    (hname : (filterKey policy.name).length < 2 ^ 31)
    (hfilt : (filterContents opts blocks policy).length < 2 ^ 33) : TableFits opts blocks := by
  have hstored := length_encodeBlock_of_none hcomp
  have hbody : (bodyArea opts blocks).length =
      (dataArea opts blocks).length + ((filterContents opts blocks policy).length + 5) := by
    rw [bodyArea, length_append, filterArea, hpol, ← hstored]
    simp
  have hmetaindex : (metaindexBytes opts blocks).length < 2 ^ 32 := by
    generalize hhandle : handleAt opts.compressor (dataArea opts blocks).length
      (filterContents opts blocks policy) = handle
    have hfits : handle.Fits := hhandle ▸ fits_handleAt (by rw [hstored]; omega)
    have henc := BlockHandle.length_encode_le hfits
    have hentry := length_encode_le (filterKey policy.name, handle.encode)
    have hblk := length_blockBytes_singleton le_rfl (filterKey policy.name, handle.encode)
    have hbytes : metaindexBytes opts blocks =
        blockBytes 1 [(filterKey policy.name, handle.encode)] := by
      rw [metaindexBytes, hpol, ← hhandle]
      rfl
    rw [hbytes, hblk]
    dsimp only at hentry
    omega
  exact
    { data := hdata
      metaindex := hmetaindex
      index := hidx
      file := length_tableFile_lt hcomp (by omega) }

theorem fits_longFilter : TableFits longFilterOptions [[longFilterEntry]] := by
  have hfilt : (filterContents longFilterOptions [[longFilterEntry]]
      (bloomFilterPolicy (2 ^ 35))).length = 2 ^ 32 + 10 := by
    obtain ⟨filter, hfilt, hlen, -⟩ := exists_longFilter
    rw [filterContents_longFilter, FilterBlockReader.length_contents, hfilt, hlen]
  exact fits_of_filterContents rfl rfl (by decide +kernel) (by decide +kernel) (by decide +kernel)
    (by decide +kernel) (by rw [hfilt]; norm_num)

/-- **A key that the filter hides**, with `2 ^ 35` bits for a key: the only entry of the table. -/
theorem not_filterAgrees_bloom : ¬ FilterAgrees bytewiseComparator 4096 16 none
    (bloomFilterPolicy (2 ^ 35)) [longFilterEntry] := by
  have hsep := separates_bytewiseComparator.internalKeyComparator
  have hplain : ((buildTable (internalTableOptions bytewiseComparator 4096 16 none none)
      [longFilterEntry]).bind fun file => (do
        let t ← Table.openRandomWithOptions (internalKeyComparator bytewiseComparator) file
          file.length none none
        t.internalGet longFilterEntry.1 : ExceptT Status Option LookupResult)) =
      some (.ok (.found [])) := by decide +kernel
  rintro ⟨file, t, file', t', hbuild, hopen, hbuild', hopen', hagree⟩
  rw [hbuild, Option.bind_some, hopen, pure_bind, ← hagree] at hplain
  -- what the table with the filter answers
  rw [buildTable_eq (by decide) hsep (pairwise_singleton _ _), cutBlocks_singleton] at hbuild'
  obtain rfl := Option.some.inj hbuild'
  obtain ⟨t'', hopen'', hr⟩ := Table.exists_open_tableFile (by decide) hsep
    (fun k hk => by cases hk) ⟨by simp, pairwise_singleton _ _⟩ fits_longFilter
  obtain rfl : t'' = t' := Except.ok.inj (Option.some.inj (hopen''.symm.trans hopen'))
  obtain ⟨r, hnew, hhides⟩ := longFilter_keyMayMatch
  have hmay : ∀ b ∈ tableBlocks longFilterOptions 0 [[longFilterEntry]],
      t''.mayHold b longFilterEntry.1 = false := fun b hb => by
    obtain ⟨handle, -, hdec, hmem, -⟩ := hr.block b hb
    have hoff : handle.offset = 0 := congrArg Prod.fst (mem_singleton.mp hmem)
    rw [hr.mayHold_of_new rfl hnew hdec, hoff, hhides]
  have hkeys : ∀ entries ∈ [[longFilterEntry]], ∀ e ∈ entries, IsInternalKey e.1 := by
    intro entries hents e he
    rw [mem_singleton.mp hents] at he
    rw [mem_singleton.mp he]
    exact ⟨[], 1, .value, by decide, rfl⟩
  have hget := hr.internalGetFull_eq hkeys (by decide : 8 ≤ longFilterEntry.1.length) true
  rw [Table.filteredLookup_eq_none hmay] at hget
  have hans := hplain.symm.trans hget
  cases hans

end LongFilter

/-! ### Keys of any kind -/

section AnyKeys

/-- The same options with a filter policy. -/
def TableOptions.withFilter (opts : TableOptions) (policy : FilterPolicy) : TableOptions :=
  { opts with filterPolicy := some policy }

/-- A table with a filter is written and opened, and `get` finds every entry. -/
def GetsAll (opts : TableOptions) (policy : FilterPolicy) (entries : List Pair) : Prop :=
  ∃ file t, buildTable (opts.withFilter policy) entries = some file ∧
    Table.openRandomWithOptions opts.comparator file file.length (some policy) opts.compressor =
      pure t ∧
    ∀ e ∈ entries, t.get e.1 = pure (some e.2)

/-- The table and its filter block have room for their offsets. -/
structure FilterFits (opts : TableOptions) (policy : FilterPolicy)
    (entries : List Pair) : Prop where
  table : TableFits (opts.withFilter policy) (cutBlocks (opts.withFilter policy) entries)
  filter : (filterContents (opts.withFilter policy) (cutBlocks (opts.withFilter policy) entries)
    policy).length < 2 ^ 32

/-- A policy that remembers of a set of keys only whether it has a certain one. -/
def keyMarker (key : Bytes) : FilterPolicy where
  name := "keyMarker"
  createFilter keys := if key ∈ keys then [1] else [0]
  keyMayMatch other filter := other != key || filter == [1]

theorem honest_keyMarker (key : Bytes) : (keyMarker key).Honest := by
  intro keys other hmem
  by_cases heq : other = key
  · subst heq
    simp [keyMarker, hmem]
  · simp [keyMarker, heq]

theorem nonEmpty_keyMarker (key : Bytes) : (keyMarker key).NonEmpty := by
  intro keys _
  by_cases hmem : key ∈ keys <;> simp [keyMarker, hmem]

/-- The target of `get` with its dummy tag. -/
theorem userKeyOf_append (target : Bytes) : userKeyOf (target ++ List.replicate 8 0) = target := by
  rw [userKeyOf, if_pos (by simp), length_append, length_replicate, Nat.add_sub_cancel, take_left]

/-- What is left of a key is shorter than every key of eight bytes or more that is at least as
long. -/
theorem userKeyOf_ne {key longest : Bytes} (hle : key.length ≤ longest.length)
    (hlong : 8 ≤ longest.length) : userKeyOf key ≠ longest := by
  intro heq
  have hlen := congrArg List.length heq
  rw [userKeyOf] at hlen
  split_ifs at hlen with hkey
  · rw [length_take] at hlen
    omega
  · omega

variable {opts : TableOptions} {policy : FilterPolicy} {entries : List Pair}

/-- The first entry that reaches the key of an entry is this entry. -/
theorem find?_of_mem {c : Comparator} (hsort : Increasing c.compare entries) {e : Pair}
    (he : e ∈ entries) :
    entries.find? (fun x => (c.compare e.1 x.1).isLE) = some e := by
  induction entries with
  | nil => cases he
  | cons x entries ih =>
    obtain ⟨hx, htail⟩ := pairwise_cons.mp hsort
    rcases mem_cons.mp he with rfl | he
    · exact find?_cons_of_pos Std.ReflCmp.isLE_rfl
    · have hbefore : (c.compare e.1 x.1).isLE = false := by
        rw [← Bool.not_eq_true, ← rank_le_rank, not_le, rank_lt_rank]
        exact hx e he
      simpa [hbefore] using ih htail he

theorem exists_longest {x : Pair} (hx : x ∈ entries) :
    ∃ e ∈ entries, ∀ y ∈ entries, y.1.length ≤ e.1.length := by
  obtain ⟨e, he, hmax⟩ := Finset.exists_max_image entries.toFinset (fun e => e.1.length)
    ⟨x, mem_toFinset.mpr hx⟩
  exact ⟨e, mem_toFinset.mp he, fun y hy => hmax y (mem_toFinset.mpr hy)⟩

/-- **What `get` finds of the key of an entry** that no filter hides. -/
theorem Table.Reads.get_eq {blocks : List (List Pair)} {t : Table opts.comparator}
    (h : t.Reads opts blocks) (hsep : opts.comparator.Separates)
    (hsort : SortedBlocks opts.comparator blocks) {e : Pair} (he : e ∈ blocks.flatten)
    (hmay : ∀ b ∈ tableBlocks opts 0 blocks, e ∈ b.entries →
      t.mayHold b (e.1 ++ List.replicate 8 0) = true) : t.get e.1 = pure (some e.2) := by
  have hinj := Cursor.injOn_rank (hsort.sorted.imp fun hlt => rank_lt_rank.mpr hlt)
  have hfilt :
    (t.filteredLookup (tableBlocks opts 0 blocks) e.1 (e.1 ++ List.replicate 8 0)).filter
      (fun x => opts.comparator.compare x.1 e.1 = .eq) =
        (blockLookup opts.comparator.compare (tableBlocks opts 0 blocks) e.1).filter
          fun x => opts.comparator.compare x.1 e.1 = .eq := by
    refine filter_filteredLookup fun b hb x hx hw => ?_
    have hxe : x = e := hinj
      (mem_flatten.mpr ⟨b.entries, entries_mem_of_mem_tableBlocks hb, hx⟩) he
      (rank_eq_rank.mpr (of_decide_eq_true hw))
    exact hmay b hb (hxe ▸ hx)
  have hblks : (blockLookup opts.comparator.compare (tableBlocks opts 0 blocks) e.1).filter
      (fun x => opts.comparator.compare x.1 e.1 = .eq) =
        (blocks.flatten.find? fun x => (opts.comparator.compare e.1 x.1).isLE).filter
          fun x => opts.comparator.compare x.1 e.1 = .eq := by
    refine filter_blockLookup hsep hsort (fun {last first x} hlt _ htgt hfst => ?_) 0
    -- the key of the entry is before the next block
    have hnext := (rank_le_rank.mpr htgt).trans_lt (rank_lt_rank.mpr (hsep.separator hlt).2)
    refine decide_eq_false fun heq => ?_
    rw [← rank_eq_rank.mpr heq] at hnext
    exact hnext.not_ge (rank_le_rank.mpr hfst)
  have hself : opts.comparator.compare e.1 e.1 = .eq := Std.ReflCmp.compare_self
  rw [find?_of_mem hsort.sorted he, Option.filter_some_pos (by simpa using hself)] at hblks
  rw [Table.get, h.getFull_eq, hfilt, hblks]
  rfl

section

variable (hint : 1 ≤ opts.restartInterval) (hsep : opts.comparator.Separates)
  (hcomp : ∀ k ∈ opts.compressor, k.Lawful) (hsort : Increasing opts.comparator.compare entries)
include hint hsep hcomp hsort

/-- **Keys of less than eight bytes are found** through every honest filter. -/
theorem getsAll_of_short (hh : policy.Honest) (hn : policy.NonEmpty)
    (hfits : FilterFits opts policy entries) (hshort : ∀ e ∈ entries, e.1.length < 8) :
    GetsAll opts policy entries := by
  obtain ⟨file, t, hbuild, hopen, hr⟩ := @Table.exists_open_buildTable (opts.withFilter policy)
    hint hsep hcomp entries hsort hfits.table
  have hblks := @sortedBlocks_cutBlocks (opts.withFilter policy) entries hsort
  refine ⟨file, t, hbuild, hopen, fun e he => ?_⟩
  refine hr.get_eq hsep hblks (by rwa [flatten_cutBlocks]) fun b hb hmem => ?_
  refine hr.mayHold_of_mem rfl hfits.filter hh hn hblks hb hmem ?_
  rw [userKeyOf_append, userKeyOf, if_neg (hshort e he).not_ge]

/-- **The longest key is hidden** from `get` by a filter that remembers it, when it has eight bytes
or more. -/
theorem not_getsAll_keyMarker {e : Pair} (he : e ∈ entries) (hlong : 8 ≤ e.1.length)
    (hlongest : ∀ x ∈ entries, x.1.length ≤ e.1.length)
    (hfits : FilterFits opts (keyMarker e.1) entries) : ¬ GetsAll opts (keyMarker e.1) entries := by
  obtain ⟨file, t, hbuild, hopen, hr⟩ := @Table.exists_open_buildTable
    (opts.withFilter (keyMarker e.1)) hint hsep hcomp entries hsort hfits.table
  have hblks := @sortedBlocks_cutBlocks (opts.withFilter (keyMarker e.1)) entries hsort
  rintro ⟨file', t', hbuild', hopen', hgets⟩
  obtain rfl : file = file' := Option.some.inj (hbuild.symm.trans hbuild')
  obtain rfl : t = t' := Except.ok.inj (Option.some.inj (hopen.symm.trans hopen'))
  have hmay : ∀ b ∈ tableBlocks (opts.withFilter (keyMarker e.1)) 0
      (cutBlocks (opts.withFilter (keyMarker e.1)) entries),
      t.mayHold b (e.1 ++ List.replicate 8 0) = false := fun b hb => by
    obtain ⟨keys, -, hkeys, hmay⟩ := hr.mayHold_eq rfl hfits.filter hblks hb
      (e.1 ++ List.replicate 8 0)
    have habsent : e.1 ∉ keys.map userKeyOf := fun hmem => by
      obtain ⟨key, hkey, heq⟩ := mem_map.mp hmem
      obtain ⟨x, hx, rfl⟩ := hkeys key hkey
      rw [flatten_cutBlocks] at hx
      exact userKeyOf_ne (hlongest x hx) hlong heq
    rw [hmay, userKeyOf_append]
    simp [keyMarker, habsent]
  have hget := hr.getFull_eq e.1 true
  rw [Table.filteredLookup_eq_none hmay] at hget
  have hans := (hgets e he).symm.trans hget
  cases hans

end

/-- **When `get` finds every key**, for all policies without false negatives: if no stored key has
eight bytes or more and the table with its filter block has room for its offsets. Within this bound
there is no other case. -/
theorem getsAll_iff (hint : 1 ≤ opts.restartInterval) (hsep : opts.comparator.Separates)
    (hcomp : ∀ k ∈ opts.compressor, k.Lawful) (hsort : Increasing opts.comparator.compare entries) :
    (∀ policy : FilterPolicy, policy.Honest → policy.NonEmpty →
      FilterFits opts policy entries ∧ (∀ e ∈ entries, e.1.length < 8) →
        GetsAll opts policy entries) ∧
    ((∀ e ∈ entries, FilterFits opts (keyMarker e.1) entries) →
      (∀ policy : FilterPolicy, policy.Honest → policy.NonEmpty → FilterFits opts policy entries →
        GetsAll opts policy entries) → ∀ e ∈ entries, e.1.length < 8) := by
  refine ⟨fun policy hh hn h => getsAll_of_short hint hsep hcomp
    hsort hh hn h.1 h.2, fun hfits hgets => ?_⟩
  by_contra hlong
  push Not at hlong
  obtain ⟨x, hx, hlong⟩ := hlong
  obtain ⟨e, he, hlongest⟩ := exists_longest hx
  exact not_getsAll_keyMarker hint hsep hcomp hsort he
    (hlong.trans (hlongest x hx)) hlongest (hfits e he) (hgets (keyMarker e.1)
      (honest_keyMarker e.1) (nonEmpty_keyMarker e.1) (hfits e he))

/-- Options for keys of any kind. -/
abbrev bytewiseTableOptions : TableOptions :=
  { comparator := bytewiseComparator, blockSize := 1, restartInterval := 16, filterPolicy := none,
    compressor := none }

/-- Two short keys are found through a Bloom filter. -/
theorem getsAll_iff_two :
    GetsAll bytewiseTableOptions (bloomFilterPolicy 10) [([97], [1]), ([98], [2])] := by
  refine (getsAll_iff (by decide) separates_bytewiseComparator (fun k hk => by cases hk)
    (by decide +kernel)).1 (bloomFilterPolicy 10) (honest_bloomFilterPolicy 10)
    (nonEmpty_bloomFilterPolicy 10) ⟨⟨⟨?_, ?_, ?_, ?_⟩, ?_⟩, ?_⟩
  all_goals decide +kernel

/-- **A key of eight bytes is not found** through a Bloom filter. -/
theorem not_getsAll_bloom : (bloomFilterPolicy 10).Honest ∧ (bloomFilterPolicy 10).NonEmpty ∧
    FilterFits bytewiseTableOptions (bloomFilterPolicy 10)
      [([97, 97, 97, 97, 97, 97, 97, 97], [1])] ∧
    ¬ GetsAll bytewiseTableOptions (bloomFilterPolicy 10)
      [([97, 97, 97, 97, 97, 97, 97, 97], [1])] := by
  refine ⟨honest_bloomFilterPolicy 10, nonEmpty_bloomFilterPolicy 10, ⟨⟨by decide +kernel,
    by decide +kernel, by decide +kernel, by decide +kernel⟩, by decide +kernel⟩, ?_⟩
  have hhides : ((buildTable (bytewiseTableOptions.withFilter (bloomFilterPolicy 10))
      [([97, 97, 97, 97, 97, 97, 97, 97], [1])]).bind fun file => (do
        let t ← Table.openRandomWithOptions bytewiseComparator file file.length
          (some (bloomFilterPolicy 10)) none
        t.get [97, 97, 97, 97, 97, 97, 97, 97] : ExceptT Status Option (Option Bytes))) =
      some (.ok none) := by decide +kernel
  rintro ⟨file, t, hbuild, hopen, hgets⟩
  have hget := hgets _ (mem_singleton_self _)
  rw [hbuild, Option.bind_some, hopen, pure_bind, hget] at hhides
  cases hhides

end AnyKeys

end PulsearcDb
