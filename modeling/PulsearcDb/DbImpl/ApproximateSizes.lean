import PulsearcDb.Table.RoundTrip
import Mathlib.Algebra.Order.BigOperators.Group.List

/-!
# Approximate sizes

`get_approximate_sizes` and `approximate_offset_of` of `db_impl/db_impl.rs`, and
`Table::approximate_offset_of` of `table/table.rs`. The offset of a key is the sum of what lies in
front of it: the sizes of the files that end before it, and in a file that covers it the offset of
the block in which it would be. The size of a range is the difference of two offsets.

In a file the offset comes out of the index block, and nothing that is checked when a table is
opened relates the order of the index to the order of the blocks. When the blocks lie in the file in
the order of their keys, in front of the metaindex (`Table.Ascending`), as they do in every table
that is built (`Table.exists_ascending_buildTable`), offsets grow with keys and the sizes of
adjacent ranges add up.
-/

namespace PulsearcDb

open IndexedBlock List

/-! ### Offsets in a table -/

/-- The offset of the first block whose index key is not before a key, or an offset behind all of
them. -/
def firstOffset (cmp : Compare) (atEnd : ℕ) (index : List (Bytes × BlockHandle))
    (key : Bytes) : ℕ :=
  (index.find? fun e => (cmp key e.1).isLE).elim atEnd (·.2.offset)

section Index

variable {cmp : Compare} {atEnd : ℕ} {index : List (Bytes × BlockHandle)}

theorem firstOffset_cons (e : Bytes × BlockHandle) (key : Bytes) :
    firstOffset cmp atEnd (e :: index) key =
      if (cmp key e.1).isLE then e.2.offset else firstOffset cmp atEnd index key := by
  rw [firstOffset, find?_cons]
  cases (cmp key e.1).isLE <;> rfl

/-- A bound that is in front of every block and of the end. -/
theorem le_firstOffset {n : ℕ} (hend : n ≤ atEnd) (hidx : ∀ e ∈ index, n ≤ e.2.offset)
    (key : Bytes) : n ≤ firstOffset cmp atEnd index key := by
  rw [firstOffset]
  rcases hfind : List.find? _ index with _ | e
  · exact hend
  · exact hidx e (mem_of_find?_eq_some hfind)

theorem firstOffset_le (hend : ∀ e ∈ index, e.2.offset ≤ atEnd) (key : Bytes) :
    firstOffset cmp atEnd index key ≤ atEnd := by
  rw [firstOffset]
  rcases hfind : List.find? _ index with _ | e
  · exact Nat.le_refl atEnd
  · exact hend e (mem_of_find?_eq_some hfind)

/-- **Offsets grow with keys** when the blocks lie in the order of the index. -/
theorem firstOffset_mono [Std.TransCmp cmp] {a b : Bytes}
    (hoffs : index.Pairwise fun x y => x.2.offset ≤ y.2.offset)
    (hend : ∀ e ∈ index, e.2.offset ≤ atEnd) (hab : (cmp a b).isLE) :
    firstOffset cmp atEnd index a ≤ firstOffset cmp atEnd index b := by
  induction index with
  | nil => exact Nat.le_refl atEnd
  | cons e index ih =>
    obtain ⟨hhead, hoffs⟩ := pairwise_cons.mp hoffs
    obtain ⟨hfst, hend⟩ := forall_mem_cons.mp hend
    rw [firstOffset_cons, firstOffset_cons]
    split_ifs with ha hb hb
    · exact le_rfl
    · exact le_firstOffset hfst hhead b
    · exact absurd (Std.TransCmp.isLE_trans hab hb) ha
    · exact ih hoffs hend

end Index

namespace Table

variable {c : Comparator}

/-- The bytes of an index block that lists these handles. -/
def indexOf (interval : ℕ) (index : List (Bytes × BlockHandle)) : Bytes :=
  blockBytes interval (index.map fun e => (e.1, e.2.encode))

/-- **A table with its blocks in order.** The index lists the blocks in the order of their keys, and
they lie in the file in this order, in front of the metaindex. -/
structure Ascending (index : List (Bytes × BlockHandle)) (fileSize : ℕ) (t : Table c) : Prop where
  indexBlock : ∃ interval, 1 ≤ interval ∧ (indexOf interval index).length < 2 ^ 32 ∧
    Block.new (indexOf interval index) = .ok t.indexBlock
  sorted : Increasing c.compare index
  fits : ∀ e ∈ index, e.2.Fits
  offsets : index.Pairwise fun x y => x.2.offset ≤ y.2.offset
  le_metaindexOffset : ∀ e ∈ index, e.2.offset ≤ t.metaindexOffset
  metaindexOffset_le : t.metaindexOffset ≤ fileSize

variable {index : List (Bytes × BlockHandle)} {fileSize : ℕ} {t : Table c}

/-- **The offset of a key is the one of its block.** -/
theorem Ascending.approximateOffsetOf_eq (h : t.Ascending index fileSize) (key : Bytes) :
    t.approximateOffsetOf key = some (firstOffset c.compare t.metaindexOffset index key) := by
  obtain ⟨interval, hint, hlen, hnew⟩ := h.indexBlock
  have hsort : Increasing c.compare (index.map fun e => (e.1, e.2.encode)) :=
    pairwise_map.mpr h.sorted
  obtain ⟨block, hblk, -, hsound⟩ := BlockIter.exists_sound hint hlen hsort
  obtain rfl : block = t.indexBlock := Except.ok.inj (hblk.symm.trans hnew)
  obtain ⟨it, hseek, hshows⟩ := hsound.seek_spec key
  change BlockIter.seek _ key = some it at hseek
  have hcomp : ((fun e : Pair => (c.compare key e.1).isLE) ∘
      fun e : Bytes × BlockHandle => (e.1, e.2.encode)) = fun e => (c.compare key e.1).isLE := rfl
  rw [find?_map, hcomp] at hshows
  simp only [approximateOffsetOf, hseek, some_bind, firstOffset]
  rcases hfind : List.find? _ index with _ | e
  · rw [hfind] at hshows
    have hvalid : it.valid = false := hshows.1
    rw [hvalid]
    rfl
  · rw [hfind] at hshows
    obtain ⟨⟨hvalid, -, hval⟩, -⟩ := hshows
    change it.valid = true at hvalid
    change it.value = some e.2.encode at hval
    have hdec := BlockHandle.decodeFrom_encode (h.fits e (mem_of_find?_eq_some hfind)) []
    rw [append_nil] at hdec
    simp [hvalid, hval, hdec]

end Table

section Built

variable {opts : TableOptions} {offset : ℕ} {blocks : List (List Pair)}

/-- The handles in the index of a table that is built, each at its place in the data area. -/
theorem exists_index_tableBlocks (hfits : offset + (dataArea opts blocks).length < 2 ^ 64) :
    ∃ index : List (Bytes × BlockHandle),
      (tableBlocks opts offset blocks).map indexEntry = index.map (fun e => (e.1, e.2.encode)) ∧
      (∀ e ∈ index, e.2.Fits) ∧ (index.Pairwise fun x y => x.2.offset ≤ y.2.offset) ∧
      ∀ e ∈ index, offset ≤ e.2.offset ∧ e.2.offset ≤ offset + (dataArea opts blocks).length := by
  fun_induction tableBlocks opts offset blocks with
  | case1 offset => exact ⟨[], rfl, by simp, List.Pairwise.nil, by simp⟩
  | case2 offset entries =>
    refine ⟨[(opts.comparator.findShortSuccessor (lastKeyOf entries),
      handleAt opts.compressor offset (blockBytes opts.restartInterval entries))], rfl, ?_,
      pairwise_singleton _ _, ?_⟩
    · rw [forall_mem_singleton]
      exact fits_handleAt (by simpa [dataArea, encodeEntries] using hfits)
    · rw [forall_mem_singleton]
      exact ⟨le_rfl, Nat.le_add_right _ _⟩
  | case3 offset entries next rest ih =>
    have hlen : (dataArea opts (entries :: next :: rest)).length =
        (encodeEntries opts entries).length + (dataArea opts (next :: rest)).length := by
      simp [dataArea]
    obtain ⟨index, hidx, hhandles, hoffs, hbounds⟩ := ih (by omega)
    refine ⟨(opts.comparator.findShortestSeparator (lastKeyOf entries) (firstKeyOf next),
      handleAt opts.compressor offset (blockBytes opts.restartInterval entries)) :: index, ?_,
      forall_mem_cons.mpr ⟨?_, hhandles⟩, pairwise_cons.mpr ⟨fun e he => ?_, hoffs⟩,
      forall_mem_cons.mpr ⟨⟨le_rfl, Nat.le_add_right _ _⟩, fun e he => ?_⟩⟩
    · rw [map_cons, map_cons, hidx]
      rfl
    · refine fits_handleAt ?_
      change offset + (encodeEntries opts entries).length < 2 ^ 64
      omega
    · exact (Nat.le_add_right _ _).trans (hbounds e he).1
    · have hbound := hbounds e he
      omega

/-- **A table that is built has its blocks in order.** -/
theorem Table.exists_ascending_buildTable (hint : 1 ≤ opts.restartInterval)
    (hsep : opts.comparator.Separates) (hcompressor : ∀ c ∈ opts.compressor, c.Lawful)
    {entries : List Pair} (hsort : Increasing opts.comparator.compare entries)
    (hfits : TableFits opts (cutBlocks opts entries)) :
    ∃ file t index, buildTable opts entries = some file ∧
      openRandomWithOptions opts.comparator file file.length opts.filterPolicy opts.compressor =
        pure t ∧ t.Ascending index file.length := by
  set blocks := cutBlocks opts entries
  have hblks : SortedBlocks opts.comparator blocks := sortedBlocks_cutBlocks hsort
  have hbody : (tableFile opts blocks).length = (dataArea opts blocks).length +
      ((filterArea opts blocks).length + ((metaindexArea opts blocks).length +
        ((indexArea opts blocks).length + (tableFooter opts blocks).encode.length))) := by
    simp only [tableFile, bodyArea, length_append]
    omega
  have hfile := hfits.file
  obtain ⟨index, hidx, hhandles, hoffs, hbounds⟩ :=
    @exists_index_tableBlocks opts 0 blocks (by omega)
  have hkeys : Increasing opts.comparator.compare (index.map fun e => (e.1, e.2.encode)) := by
    rw [← hidx]
    exact pairwise_map.mpr ((key_lt_tableBlocks hsep hblks).imp And.left)
  have hbytes : indexBytes opts blocks = indexOf 1 index := by rw [indexBytes, hidx, indexOf]
  have hindexLength := hfits.index
  rw [hbytes] at hindexLength
  obtain ⟨indexBlock, hnew, -, -⟩ := BlockIter.exists_sound le_rfl hindexLength hkeys
  refine ⟨_, _, index, buildTable_eq hint hsep hsort,
    openRandomWithOptions_eq hcompressor hfits.file hfits.metaindex
      (by rw [hbytes]; exact hnew), ?_⟩
  exact
    { indexBlock := ⟨1, le_rfl, hindexLength, hnew⟩
      sorted := pairwise_map.mp hkeys
      fits := hhandles
      offsets := hoffs
      le_metaindexOffset := fun e he => by
        have hbound := (hbounds e he).2
        change e.2.offset ≤ (bodyArea opts blocks).length
        rw [bodyArea, length_append]
        omega
      metaindexOffset_le := by
        change (bodyArea opts blocks).length ≤ _
        rw [bodyArea, length_append, hbody]
        omega }

end Built

/-! ### Offsets in a version -/

/-- `u64::saturating_add`. -/
def saturatingAdd (a b : ℕ) : ℕ := min (a + b) (2 ^ 64 - 1)

/-- `TableCache::find_table`: the table of a file number, or why it does not open. -/
abbrev FindTable (c : Comparator) := ℕ → ExceptT Status Option (Table (internalKeyComparator c))

/-- `TableCache::approximate_offset_of`. -/
def FindTable.approximateOffsetOf {c : Comparator} (findTable : FindTable c) (number : ℕ)
    (key : Bytes) : ExceptT Status Option ℕ := do
  let table ← findTable number
  liftM (table.approximateOffsetOf key)

/-- `struct Range`, a range of user keys. -/
structure Range where
  start : Bytes
  limit : Bytes

namespace Version

variable {c : Comparator}

/-- The inner loop of `approximate_offset_of`, over the files of a level. -/
def addOffsets (findTable : FindTable c) (ik : Bytes) (level : ℕ) :
    ℕ → List FileMetaData → Option ℕ
  | result, [] => some result
  | result, f :: files =>
    if (icmp c f.largest ik).isLE then
      addOffsets findTable ik level (saturatingAdd result f.fileSize) files
    else if icmp c f.smallest ik = .gt then
      if 0 < level then some result else addOffsets findTable ik level result files
    else
      match findTable.approximateOffsetOf f.number ik with
      | none => none
      | some (.ok offset) => addOffsets findTable ik level (saturatingAdd result offset) files
      | some (.error _) => addOffsets findTable ik level result files

/-- The bytes of the version in front of a key. -/
def approximateOffsetOf (findTable : FindTable c) (v : Version) (ik : Bytes) : Option ℕ :=
  (List.range numLevels).foldlM
    (fun result level => addOffsets findTable ik level result (v.files level)) 0

/-- The bounds become internal keys in front of every entry of their user keys, and the difference
is cut off at zero. -/
def getApproximateSizes (findTable : FindTable c) (v : Version) (ranges : List Range) :
    Option (List ℕ) :=
  ranges.mapM fun r => do
    let start ← v.approximateOffsetOf findTable (lookupKey r.start maxSequenceNumber)
    let limit ← v.approximateOffsetOf findTable (lookupKey r.limit maxSequenceNumber)
    return limit - start

/-- **A version whose offsets can be asked for.** The files of the deeper levels lie one behind the
other, every table opens, and the sizes of the files add up to a `u64`. -/
structure Sized (findTable : FindTable c) (v : Version) : Prop where
  bounds : ∀ level, 0 < level → level < numLevels → ∀ f ∈ v.files level,
    (icmp c f.smallest f.largest).isLE
  sorted : ∀ level, 0 < level → level < numLevels →
    (v.files level).Pairwise fun f g => icmp c f.largest g.smallest = .lt
  tables : ∀ level < numLevels, ∀ f ∈ v.files level, ∃ t, findTable f.number = pure t
  total : ((List.range numLevels).map fun level => totalFileSize (v.files level)).sum < 2 ^ 64

/-- **Offsets grow with keys, and the sizes of adjacent ranges add up.** -/
def SizesAdd (findTable : FindTable c) (v : Version) : Prop :=
  ∀ a b d : Bytes, (c.compare a b).isLE → (c.compare b d).isLE →
    ∃ offsetA offsetB offsetD sizeAB sizeBD sizeAD,
      v.approximateOffsetOf findTable (lookupKey a maxSequenceNumber) = some offsetA ∧
      v.approximateOffsetOf findTable (lookupKey b maxSequenceNumber) = some offsetB ∧
      v.approximateOffsetOf findTable (lookupKey d maxSequenceNumber) = some offsetD ∧
      offsetA ≤ offsetB ∧ offsetB ≤ offsetD ∧
      v.getApproximateSizes findTable [⟨a, b⟩, ⟨b, d⟩, ⟨a, d⟩] = some [sizeAB, sizeBD, sizeAD] ∧
      offsetA + sizeAB = offsetB ∧ sizeAB + sizeBD = sizeAD

/-! ### The offset as a sum -/

/-- What a file adds to the offset of a key, with the offsets of its table. -/
def share (c : Comparator) (offset : ℕ → Bytes → ℕ) (ik : Bytes) (f : FileMetaData) : ℕ :=
  if (icmp c f.largest ik).isLE then f.fileSize
  else if icmp c f.smallest ik = .gt then 0
  else offset f.number ik

variable {findTable : FindTable c} {offset : ℕ → Bytes → ℕ} {ik ik' : Bytes}
  {files : List FileMetaData} {f : FileMetaData}

theorem share_le (hoff : offset f.number ik ≤ f.fileSize) :
    share c offset ik f ≤ f.fileSize := by
  rw [share]
  split_ifs
  · exact le_rfl
  · exact Nat.zero_le _
  · exact hoff

/-- **The share of a file grows with the key**: nothing before the file, the offset in it, and its
whole size behind it. -/
theorem share_mono (hle : (icmp c ik ik').isLE) (hsize : offset f.number ik ≤ f.fileSize)
    (hoff : offset f.number ik ≤ offset f.number ik') :
    share c offset ik f ≤ share c offset ik' f := by
  by_cases hl' : (icmp c f.largest ik').isLE
  · rw [share.eq_def c offset ik', if_pos hl']
    exact share_le hsize
  · have hl : ¬ (icmp c f.largest ik).isLE := fun h => hl' (Std.TransCmp.isLE_trans h hle)
    rw [share, share, if_neg hl, if_neg hl']
    split_ifs with hs hs' hs'
    · exact le_rfl
    · exact Nat.zero_le _
    · exact absurd
        (Std.TransCmp.gt_of_gt_of_isGE hs' (Std.OrientedCmp.isGE_iff_isLE.mpr hle))
        hs
    · exact hoff

theorem sum_share_le (hsize : ∀ f ∈ files, offset f.number ik ≤ f.fileSize) :
    (files.map (share c offset ik)).sum ≤ totalFileSize files :=
  sum_le_sum fun f hf => share_le (hsize f hf)

/-- No file behind a file that starts behind the key has a share. -/
theorem sum_share_eq_zero (hbounds : ∀ g ∈ files, (icmp c g.smallest g.largest).isLE)
    (hbehind : ∀ g ∈ files, icmp c g.smallest ik = .gt) :
    (files.map (share c offset ik)).sum = 0 := by
  refine sum_eq_zero fun n hn => ?_
  obtain ⟨g, hg, rfl⟩ := mem_map.mp hn
  have hl : ¬ (icmp c g.largest ik).isLE := fun h =>
    Ordering.isLE_iff_ne_gt.mp (Std.TransCmp.isLE_trans (hbounds g hg) h) (hbehind g hg)
  rw [share, if_neg hl, if_pos (hbehind g hg)]

theorem saturatingAdd_eq {a b : ℕ} (h : a + b < 2 ^ 64) : saturatingAdd a b = a + b := by
  rw [saturatingAdd]
  omega

/-- **The loop over a level adds the shares of its files.** In a deeper level it stops early, where
the shares of the other files are zero. -/
theorem addOffsets_eq {level : ℕ} (result : ℕ)
    (htabs : ∀ f ∈ files, findTable.approximateOffsetOf f.number ik = pure (offset f.number ik))
    (hsize : ∀ f ∈ files, offset f.number ik ≤ f.fileSize)
    (hbounds : 0 < level → ∀ f ∈ files, (icmp c f.smallest f.largest).isLE)
    (hsort : 0 < level → files.Pairwise fun f g => icmp c f.largest g.smallest = .lt)
    (htotal : result + totalFileSize files < 2 ^ 64) :
    addOffsets findTable ik level result files =
      some (result + (files.map (share c offset ik)).sum) := by
  induction files generalizing result with
  | nil => rfl
  | cons f files ih =>
    obtain ⟨htab, htabs⟩ := forall_mem_cons.mp htabs
    obtain ⟨hoff, hsize⟩ := forall_mem_cons.mp hsize
    have hsplit : totalFileSize (f :: files) = f.fileSize + totalFileSize files := rfl
    -- The rest of the loop, when the share of this file has been added.
    have hrest : ∀ n, n = share c offset ik f → addOffsets findTable ik level
        (saturatingAdd result n) files =
          some (result + ((f :: files).map (share c offset ik)).sum) := by
      rintro n rfl
      have hshare : share c offset ik f ≤ f.fileSize := share_le hoff
      rw [saturatingAdd_eq (by omega), ih _ htabs hsize
        (fun hlev => (forall_mem_cons.mp (hbounds hlev)).2)
        (fun hlev => (pairwise_cons.mp (hsort hlev)).2) (by omega), map_cons,
        sum_cons, Nat.add_assoc]
    rw [addOffsets]
    split_ifs with hl hs hlev
    · exact hrest _ (by rw [share, if_pos hl])
    · have hshare : share c offset ik f = 0 := by rw [share, if_neg hl, if_pos hs]
      have hbehind : ∀ g ∈ files, icmp c g.smallest ik = .gt := fun g hg =>
        Std.TransCmp.gt_trans
          (Std.OrientedCmp.gt_of_lt ((pairwise_cons.mp (hsort hlev)).1 g hg))
          (by rwa [Ordering.isLE_iff_ne_gt, not_not] at hl)
      rw [map_cons, sum_cons, hshare,
        sum_share_eq_zero (forall_mem_cons.mp (hbounds hlev)).2 hbehind]
      rfl
    · have hshare : share c offset ik f = 0 := by rw [share, if_neg hl, if_pos hs]
      have hadded := hrest 0 hshare.symm
      rwa [saturatingAdd_eq (by omega)] at hadded
    · rw [htab]
      exact hrest _ (by rw [share, if_neg hl, if_neg hs])

variable {v : Version}

/-- The shares of all files of a version. -/
def shares (c : Comparator) (offset : ℕ → Bytes → ℕ) (v : Version) (levels : List ℕ) (ik : Bytes) :
    ℕ :=
  (levels.map fun level => ((v.files level).map (share c offset ik)).sum).sum

theorem shares_mono {levels : List ℕ} (hle : (icmp c ik ik').isLE)
    (hsize : ∀ level ∈ levels, ∀ f ∈ v.files level, offset f.number ik ≤ f.fileSize)
    (hoff : ∀ level ∈ levels, ∀ f ∈ v.files level, offset f.number ik ≤ offset f.number ik') :
    v.shares c offset levels ik ≤ v.shares c offset levels ik' :=
  sum_le_sum fun level hlev => sum_le_sum fun f hf =>
    share_mono hle (hsize level hlev f hf) (hoff level hlev f hf)

/-- **The offset of a key is the sum of the shares of all files.** -/
theorem Sized.foldlM_addOffsets_eq (h : v.Sized findTable) {levels : List ℕ} (result : ℕ)
    (hlevels : ∀ level ∈ levels, level < numLevels)
    (htabs : ∀ level ∈ levels, ∀ f ∈ v.files level,
      findTable.approximateOffsetOf f.number ik = pure (offset f.number ik))
    (hsize : ∀ level ∈ levels, ∀ f ∈ v.files level, offset f.number ik ≤ f.fileSize)
    (htotal : result + (levels.map fun level => totalFileSize (v.files level)).sum < 2 ^ 64) :
    levels.foldlM (fun result level => addOffsets findTable ik level result (v.files level))
      result = some (result + v.shares c offset levels ik) := by
  induction levels generalizing result with
  | nil => rfl
  | cons level levels ih =>
    obtain ⟨hlev, hlevels⟩ := forall_mem_cons.mp hlevels
    obtain ⟨htab, htabs⟩ := forall_mem_cons.mp htabs
    obtain ⟨hsizeHere, hsize⟩ := forall_mem_cons.mp hsize
    rw [map_cons, sum_cons] at htotal
    have hshares : ((v.files level).map (share c offset ik)).sum ≤ totalFileSize (v.files level) :=
      sum_share_le hsizeHere
    have hadded := addOffsets_eq result htab hsizeHere (fun hpos => h.bounds level hpos hlev)
      (fun hpos => h.sorted level hpos hlev) (by omega)
    rw [foldlM_cons, hadded, some_bind,
      ih _ hlevels htabs hsize (by omega), shares, shares, map_cons, sum_cons,
      Nat.add_assoc]

/-- The tables of a version have their blocks in order, and are not longer than recorded. -/
def TablesAscend (findTable : FindTable c) (v : Version) : Prop :=
  ∀ level < numLevels, ∀ f ∈ v.files level, ∀ t, findTable f.number = pure t →
    ∃ index, t.Ascending index f.fileSize

end Version

/-- The offsets of the tables that open. -/
def FindTable.offset {c : Comparator} (findTable : FindTable c) (number : ℕ) (ik : Bytes) : ℕ :=
  match findTable.approximateOffsetOf number ik with
  | some (.ok offset) => offset
  | _ => 0

namespace Version

variable {c : Comparator} {findTable : FindTable c} {v : Version}

theorem approximateOffsetOf_of_ascending {number fileSize : ℕ}
    {t : Table (internalKeyComparator c)} {index : List (Bytes × BlockHandle)}
    (hopen : findTable number = pure t) (h : t.Ascending index fileSize) (ik : Bytes) :
    findTable.approximateOffsetOf number ik = pure (findTable.offset number ik) ∧
      findTable.offset number ik = firstOffset (icmp c) t.metaindexOffset index ik := by
  have heq : findTable.approximateOffsetOf number ik =
      pure (firstOffset (icmp c) t.metaindexOffset index ik) := by
    rw [FindTable.approximateOffsetOf, hopen, pure_bind, h.approximateOffsetOf_eq]
    rfl
  have hoff : findTable.offset number ik = firstOffset (icmp c) t.metaindexOffset index ik := by
    rw [FindTable.offset, heq]
    rfl
  exact ⟨by rw [heq, hoff], hoff⟩

/-- **The offsets of a version.** -/
theorem Sized.approximateOffsetOf_eq (h : v.Sized findTable) (hascend : v.TablesAscend findTable)
    (ik : Bytes) : v.approximateOffsetOf findTable ik =
      some (v.shares c findTable.offset (List.range numLevels) ik) := by
  have hall : ∀ level ∈ List.range numLevels, ∀ f ∈ v.files level,
      findTable.approximateOffsetOf f.number ik = pure (findTable.offset f.number ik) ∧
        findTable.offset f.number ik ≤ f.fileSize := by
    intro level hlev f hf
    obtain ⟨t, hopen⟩ := h.tables level (mem_range.mp hlev) f hf
    obtain ⟨index, ht⟩ := hascend level (mem_range.mp hlev) f hf t hopen
    obtain ⟨hoff, heq⟩ := approximateOffsetOf_of_ascending hopen ht ik
    refine ⟨hoff, ?_⟩
    rw [heq]
    exact (firstOffset_le ht.le_metaindexOffset ik).trans ht.metaindexOffset_le
  have hsum := h.foldlM_addOffsets_eq 0 (fun level hlev => mem_range.mp hlev)
    (fun level hlev f hf => (hall level hlev f hf).1)
    (fun level hlev f hf => (hall level hlev f hf).2)
    (by rw [Nat.zero_add]; exact h.total)
  rwa [Nat.zero_add] at hsum

/-- **Offsets grow with keys.** -/
theorem Sized.shares_le (h : v.Sized findTable) (hascend : v.TablesAscend findTable)
    {ik ik' : Bytes} (hle : (icmp c ik ik').isLE) :
    v.shares c findTable.offset (List.range numLevels) ik ≤
      v.shares c findTable.offset (List.range numLevels) ik' := by
  have hall : ∀ level ∈ List.range numLevels, ∀ f ∈ v.files level,
      findTable.offset f.number ik ≤ f.fileSize ∧
        findTable.offset f.number ik ≤ findTable.offset f.number ik' := by
    intro level hlev f hf
    obtain ⟨t, hopen⟩ := h.tables level (mem_range.mp hlev) f hf
    obtain ⟨index, ht⟩ := hascend level (mem_range.mp hlev) f hf t hopen
    rw [(approximateOffsetOf_of_ascending hopen ht ik).2,
      (approximateOffsetOf_of_ascending hopen ht ik').2]
    exact ⟨(firstOffset_le ht.le_metaindexOffset ik).trans ht.metaindexOffset_le,
      firstOffset_mono ht.offsets ht.le_metaindexOffset hle⟩
  exact shares_mono hle (fun level hlev f hf => (hall level hlev f hf).1)
    fun level hlev f hf => (hall level hlev f hf).2

/-- The internal keys of two bounds are ordered as the bounds. -/
theorem isLE_icmp_lookupKey {a b : Bytes} (s : ℕ) (hab : (c.compare a b).isLE) :
    (icmp c (lookupKey a s) (lookupKey b s)).isLE := by
  have htag : keyTag (lookupKey a s) = keyTag (lookupKey b s) := by
    simp [keyTag, lookupKey, internalKey]
  simp only [icmp, lookupKey, userKey_internalKey]
  rcases hord : c.compare a b with _ | _ | _
  · rfl
  · simp only [lookupKey] at htag
    simp [htag]
  · rw [hord] at hab
    cases hab

/-- **Sizes of adjacent ranges add up** when the tables have their blocks in order. -/
theorem sizesAdd_of_tablesAscend (h : v.Sized findTable) (hascend : v.TablesAscend findTable) :
    v.SizesAdd findTable := by
  intro a b d hab hbd
  let offset (key : Bytes) : ℕ :=
    v.shares c findTable.offset (List.range numLevels) (lookupKey key maxSequenceNumber)
  have hoff (key : Bytes) : v.approximateOffsetOf findTable (lookupKey key maxSequenceNumber) =
      some (offset key) := h.approximateOffsetOf_eq hascend _
  have hB : offset a ≤ offset b := h.shares_le hascend (isLE_icmp_lookupKey _ hab)
  have hD : offset b ≤ offset d := h.shares_le hascend (isLE_icmp_lookupKey _ hbd)
  refine ⟨offset a, offset b, offset d, offset b - offset a, offset d - offset b,
    offset d - offset a, hoff a, hoff b, hoff d, hB, hD, ?_, by omega, by omega⟩
  simp only [getApproximateSizes, mapM_cons, mapM_nil, hoff, Option.bind_eq_bind,
    Option.bind_some, Option.pure_def]

/-! ### Versions of one table -/

/-- A version with one file, in level 1. -/
def ofFile (f : FileMetaData) : Version where
  files level := if level = 1 then [f] else []

theorem mem_files_ofFile {f g : FileMetaData} {level : ℕ} (hg : g ∈ (ofFile f).files level) :
    g = f := by
  rw [ofFile] at hg
  dsimp only at hg
  split_ifs at hg
  · exact mem_singleton.mp hg
  · cases hg

theorem sized_ofFile {f : FileMetaData} (hbounds : (icmp c f.smallest f.largest).isLE)
    (hsize : f.fileSize < 2 ^ 64) (hopen : ∃ t, findTable f.number = pure t) :
    (ofFile f).Sized findTable where
  bounds level _ _ g hg := by rwa [mem_files_ofFile hg]
  sorted level _ _ := by
    rw [ofFile]
    dsimp only
    split_ifs
    · exact pairwise_singleton _ _
    · exact List.Pairwise.nil
  tables level _ g hg := by rwa [mem_files_ofFile hg]
  total := by
    simpa [range_succ, numLevels, ofFile, totalFileSize] using hsize

/-- Two blocks of one entry each. -/
def twoBlocks : List Pair :=
  [(internalKey [98, 98] 1 .value, [1]), (internalKey [100, 100] 1 .value, [2])]

/-- The options with which each entry gets a block of its own. -/
def smallBlocks : TableOptions := internalTableOptions bytewiseComparator 1 1 none none

/-- The table of the two blocks. -/
def twoBlocksFile : FileMetaData where
  number := 5
  fileSize := ((buildTable smallBlocks twoBlocks).getD []).length
  smallest := internalKey [98, 98] 1 .value
  largest := internalKey [100, 100] 1 .value

/-- A version of one table that was built. -/
theorem sizesAdd_ofFile_twoBlocks : ∃ findTable : FindTable bytewiseComparator,
    (ofFile twoBlocksFile).Sized findTable ∧ (ofFile twoBlocksFile).TablesAscend findTable ∧
      (ofFile twoBlocksFile).SizesAdd findTable := by
  obtain ⟨file, t, index, hbuild, -, hascending⟩ := @Table.exists_ascending_buildTable smallBlocks
    le_rfl separates_bytewiseComparator.internalKeyComparator (by rintro k ⟨⟩) twoBlocks
    (by decide +kernel) (by decide +kernel)
  have hsize : twoBlocksFile.fileSize = file.length := by
    rw [twoBlocksFile, hbuild, Option.getD_some]
  have hsized : (ofFile twoBlocksFile).Sized (fun _ => pure t : FindTable bytewiseComparator) :=
    sized_ofFile (by decide +kernel) (by decide +kernel) ⟨t, rfl⟩
  have hascend : (ofFile twoBlocksFile).TablesAscend
      (fun _ => pure t : FindTable bytewiseComparator) := by
    intro level _ f hf t' ht'
    rw [mem_files_ofFile hf, hsize]
    obtain rfl : t = t' := Except.ok.inj (Option.some.inj ht')
    exact ⟨index, hascending⟩
  exact ⟨_, hsized, hascend, sizesAdd_of_tablesAscend hsized hascend⟩

/-- The table of the two blocks, with an index that lists their handles the other way round. -/
def swappedTable : Bytes :=
  let blocks := twoBlocks.map fun e => [e]
  let front := bodyArea smallBlocks blocks ++ metaindexArea smallBlocks blocks
  let index := match (tableBlocks smallBlocks 0 blocks).map indexEntry with
    | [first, second] => blockBytes 1 [(first.1, second.2), (second.1, first.2)]
    | _ => []
  front ++ (encodeBlock none index ++
    ({ tableFooter smallBlocks blocks with index := handleAt none front.length index } :
      TableFooter).encode)

/-- The file of the table with swapped handles. -/
def swappedFile : FileMetaData := { twoBlocksFile with fileSize := swappedTable.length }

/-- The table cache that opens it. -/
def findSwapped : FindTable bytewiseComparator := fun _ =>
  Table.openRandomWithOptions (internalKeyComparator bytewiseComparator) swappedTable
    swappedTable.length none none

/-- **A table that opens need not have its blocks in order**: the offset of a key in the first block
is then the larger one, and the size of the range between the two blocks is cut off. -/
theorem not_sizesAdd_swapped : (ofFile swappedFile).Sized findSwapped ∧
    (ofFile swappedFile).getApproximateSizes findSwapped [⟨[98, 99], [99, 0]⟩] = some [0] ∧
      ¬ (ofFile swappedFile).SizesAdd findSwapped := by
  have hopens : Option.map Except.isOk (findSwapped 5).run = some true := by decide +kernel
  refine ⟨sized_ofFile (by decide +kernel) (by decide +kernel) ?_, by decide +kernel, fun h => ?_⟩
  · change ∃ t, findSwapped 5 = pure t
    rcases hopen : findSwapped 5 with _ | _ | t
    · rw [hopen] at hopens
      cases hopens
    · rw [hopen] at hopens
      cases hopens
    · exact ⟨t, rfl⟩
  · obtain ⟨offsetA, offsetB, -, -, -, -, hA, hB, -, hle, -⟩ :=
      h [98, 99] [99, 0] [99, 0] (by decide +kernel) (by decide +kernel)
    have hgt : ((ofFile swappedFile).approximateOffsetOf findSwapped
          (lookupKey [99, 0] maxSequenceNumber)).getD 0 <
        ((ofFile swappedFile).approximateOffsetOf findSwapped
          (lookupKey [98, 99] maxSequenceNumber)).getD 0 := by decide +kernel
    rw [hA, hB] at hgt
    exact absurd hle (not_le.mpr hgt)

end Version

end PulsearcDb
