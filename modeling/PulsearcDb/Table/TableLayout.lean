import PulsearcDb.Table.TableBuilder

/-!
# What the table builder writes

`Built` says what a `TableFileBuilder` has written when its entries are cut into closed blocks and
an open one. Every entry keeps it, no assertion fails on sorted entries, and a finished table is the
file `tableFile` of its blocks (`buildTable_eq`).
-/

namespace PulsearcDb

open IndexedBlock BlockBuilder FilterBlockBuilder List

namespace TableFileBuilder

variable {opts : TableOptions} {done : List (List Pair)} {cur : List Pair}
  {b : TableFileBuilder opts} {e : Pair}

/-- The filter block has the keys of the closed blocks and of the open one. -/
structure Filtered (opts : TableOptions) (done : List (List Pair))
    (cur : List Pair) (filterBlock : Option (FilterPolicy × FilterBlockBuilder)) :
    Prop where
  of_none : opts.filterPolicy = none → filterBlock = none
  of_some : ∀ policy ∈ opts.filterPolicy,
    ∃ fb, filterBlock = some (internalFilterPolicy policy, fb) ∧
    Reached (internalFilterPolicy policy)
      (filterBlocks opts 0 done ++ [((dataArea opts done).length, cur.map Prod.fst)])
      ((dataArea opts done).length / filterBase) fb

/-- **What the builder has written**: the closed blocks, the open one, and an index without the
entry of the last block. -/
structure Built (done : List (List Pair)) (cur : List Pair)
    (b : TableFileBuilder opts) : Prop where
  closed_eq : b.closed = false
  file_eq : b.file = dataArea opts done
  offset_eq : b.offset = (dataArea opts done).length
  dataBlock_eq : b.dataBlock = ofEntries opts.restartInterval cur
  indexBlock_eq : b.indexBlock =
    ofEntries 1 ((indexSoFar opts 0 (allBlocks (done, cur))).map indexEntry)
  lastKey_eq : b.lastKey = lastKeyOf (done.flatten ++ cur)
  numEntries_eq : b.numEntries = (done.flatten ++ cur).length
  pending_eq : b.pendingIndexEntry = true ↔ cur = [] ∧ done ≠ []
  handle_eq : cur = [] → ∀ {init entries}, done = init ++ [entries] → b.pendingHandle =
    handleAt opts.compressor (dataArea opts init).length (blockBytes opts.restartInterval entries)
  filtered : Filtered opts done cur b.filterBlock

theorem dataArea_concat (blocks : List (List Pair)) (entries : List Pair) :
    dataArea opts (blocks ++ [entries]) = dataArea opts blocks ++ encodeEntries opts entries := by
  simp [dataArea]

theorem filterBlocks_concat (blocks : List (List Pair)) (entries : List Pair) (offset : ℕ) :
    filterBlocks opts offset (blocks ++ [entries]) = filterBlocks opts offset blocks ++
      [(offset + (dataArea opts blocks).length, entries.map Prod.fst)] := by
  induction blocks generalizing offset with
  | nil => simp [filterBlocks, dataArea]
  | cons block blocks ih =>
    have hlen : (dataArea opts (block :: blocks)).length =
        (encodeEntries opts block).length + (dataArea opts blocks).length := by
      simp [dataArea]
    rw [cons_append, filterBlocks, ih, filterBlocks, hlen, Nat.add_assoc]
    rfl

/-! ### The filter block -/

section Filtered

variable {filterBlock : Option (FilterPolicy × FilterBlockBuilder)}

theorem filtered_new (opts : TableOptions) :
    Filtered opts [] [] (opts.filterPolicy.map fun policy => (internalFilterPolicy policy,
      ({} : FilterBlockBuilder).startBlock (internalFilterPolicy policy) 0)) where
  of_none hnone := by rw [hnone]; rfl
  of_some policy hpol := by
    rw [Option.mem_def.mp hpol]
    exact ⟨_, rfl,
      ((reached_new (internalFilterPolicy policy)).startBlock (Nat.zero_le _)).openBlock rfl⟩

theorem Filtered.addKey (h : Filtered opts done cur filterBlock) (e : Pair) :
    Filtered opts done (cur ++ [e])
      (filterBlock.map fun (policy, fb) => (policy, fb.addKey e.1)) where
  of_none hnone := by rw [h.of_none hnone]; rfl
  of_some policy hpol := by
    obtain ⟨fb, rfl, hr⟩ := h.of_some policy hpol
    rw [map_append]
    exact ⟨fb.addKey e.1, rfl, hr.addKey rfl e.1⟩

theorem Filtered.startBlock (h : Filtered opts done cur filterBlock) :
    Filtered opts (done ++ [cur]) [] (filterBlock.map fun (policy, fb) =>
      (policy, fb.startBlock policy (dataArea opts (done ++ [cur])).length)) where
  of_none hnone := by rw [h.of_none hnone]; rfl
  of_some policy hpol := by
    obtain ⟨fb, rfl, hr⟩ := h.of_some policy hpol
    refine ⟨_, rfl, ?_⟩
    rw [filterBlocks_concat, Nat.zero_add]
    refine (hr.startBlock (Nat.div_le_div_right ?_)).openBlock rfl
    rw [dataArea_concat, length_append]
    exact Nat.le_add_right _ _

end Filtered

/-! ### The calls -/

section

variable (hint : 1 ≤ opts.restartInterval)
include hint

theorem exists_built : ∃ b, withOptions opts = some b ∧ Built [] [] b := by
  refine ⟨{ filterBlock := opts.filterPolicy.map fun policy => (internalFilterPolicy policy,
    ({} : FilterBlockBuilder).startBlock (internalFilterPolicy policy) 0) }, ?_, ?_⟩
  · rw [withOptions, guard, if_pos hint]
    rfl
  · exact
      { closed_eq := rfl
        file_eq := rfl
        offset_eq := rfl
        dataBlock_eq := rfl
        indexBlock_eq := rfl
        lastKey_eq := rfl
        numEntries_eq := rfl
        pending_eq := by simp
        handle_eq := fun _ {init entries} hdone => by simp at hdone
        filtered := filtered_new opts }

/-- The open block is closed. -/
theorem Built.flush_spec (h : Built done cur b) :
    ∃ b', b.flush = some b' ∧ Built (allBlocks (done, cur)) [] b' := by
  by_cases hcur : cur = []
  · have hbuf : b.dataBlock.buffer = [] := by
      rw [h.dataBlock_eq, buffer_ofEntries_eq_nil hint, hcur]
    subst hcur
    refine ⟨b, ?_, h⟩
    simp [flush, guard, h.closed_eq, hbuf]
  · have hbuf : b.dataBlock.buffer ≠ [] := by
      rwa [h.dataBlock_eq, ne_eq, buffer_ofEntries_eq_nil hint]
    have hpend : b.pendingIndexEntry = false := by
      rw [← Bool.not_eq_true, h.pending_eq]
      exact fun hempty => hcur hempty.1
    have hblks : allBlocks (done, cur) = done ++ [cur] := if_neg hcur
    have hblk : b.dataBlock.finish.buffer = blockBytes opts.restartInterval cur := by
      rw [h.dataBlock_eq]
      rfl
    have hoff : (dataArea opts done).length + (encodeBlock opts.compressor
        (blockBytes opts.restartInterval cur)).length = (dataArea opts (done ++ [cur])).length := by
      rw [dataArea_concat, length_append]
      rfl
    rw [hblks]
    refine ⟨{ b with
      file := b.file ++ encodeEntries opts cur
      offset := (dataArea opts (done ++ [cur])).length
      dataBlock := ofEntries opts.restartInterval []
      pendingHandle := handleAt opts.compressor (dataArea opts done).length
        (blockBytes opts.restartInterval cur)
      pendingIndexEntry := true
      filterBlock := b.filterBlock.map fun (policy, fb) =>
        (policy, fb.startBlock policy (dataArea opts (done ++ [cur])).length) }, ?_, ?_⟩
    · have hreset : b.dataBlock.reset = ofEntries opts.restartInterval [] := by
        rw [h.dataBlock_eq, reset_ofEntries hint]
      simp only [flush, guard, h.closed_eq, if_neg hbuf, hpend, writeBlock, hblk, hoff,
        hreset, h.offset_eq, encodeEntries, if_true, Option.pure_def, Option.bind_eq_bind,
        Option.bind_some]
    · exact
        { closed_eq := h.closed_eq
          file_eq := by dsimp only; rw [h.file_eq, dataArea_concat]
          offset_eq := rfl
          dataBlock_eq := rfl
          indexBlock_eq := h.indexBlock_eq.trans (by rw [hblks]; rfl)
          lastKey_eq := h.lastKey_eq.trans (by simp)
          numEntries_eq := h.numEntries_eq.trans (by simp)
          pending_eq := by simp
          handle_eq := fun _ {init entries} hdone => by
            obtain ⟨rfl, hlast⟩ := append_inj' hdone rfl
            obtain rfl := singleton_injective hlast
            rfl
          filtered := h.filtered.startBlock }

omit hint in
/-- The index entry of a closed block is written with the first entry of the next block. -/
theorem Built.addIndexEntry_spec (h : Built done cur b) (hsep : opts.comparator.Separates)
    (hsort : SortedBlocks opts.comparator (done ++ [cur ++ [e]])) :
    ∃ lastKey, b.addIndexEntry (opts.comparator.findShortestSeparator · e.1) =
      some { b with
        lastKey
        indexBlock := ofEntries 1 ((indexSoFar opts 0 (done ++ [cur ++ [e]])).map indexEntry)
        pendingIndexEntry := false } := by
  have hidx : Increasing opts.comparator.compare
      ((indexSoFar opts 0 (done ++ [cur ++ [e]])).map indexEntry) :=
    pairwise_map.mpr (((key_lt_tableBlocks hsep hsort).imp And.left).sublist (dropLast_sublist _))
  rw [addIndexEntry]
  split_ifs with hpend
  · obtain ⟨rfl, hdone⟩ := h.pending_eq.mp hpend
    obtain ⟨init, entries, rfl⟩ := (eq_nil_or_concat' done).resolve_left hdone
    have hlast : b.lastKey = lastKeyOf entries := by
      rw [h.lastKey_eq, append_nil, flatten_append, flatten_singleton]
      exact lastKeyOf_append _ (hsort.ne_nil entries (by simp))
    rw [nil_append, indexSoFar_concat, map_append] at hidx
    have hadd := add_ofEntries (le_refl 1) (eq_nil_or_gt hidx)
    refine ⟨opts.comparator.findShortestSeparator b.lastKey e.1, ?_⟩
    have hblk : b.indexBlock =
        ofEntries 1 ((indexSoFar opts 0 (init ++ [entries])).map indexEntry) := h.indexBlock_eq
    rw [nil_append, indexSoFar_concat, map_append, hblk, h.handle_eq rfl rfl, hlast]
    simp only [Nat.zero_add] at hadd ⊢
    exact congrArg (Option.bind · _) hadd
  · refine ⟨b.lastKey, ?_⟩
    have hsame : indexSoFar opts 0 (done ++ [cur ++ [e]]) =
        indexSoFar opts 0 (allBlocks (done, cur)) := by
      by_cases hcur : cur = []
      · have hdone : done = [] := by
          by_contra hdone
          exact hpend (h.pending_eq.mpr ⟨hcur, hdone⟩)
        rw [hcur, hdone]
        rfl
      · rw [allBlocks, if_neg hcur]
        exact indexSoFar_congr done (firstKeyOf_append hcur [e]) 0
    rw [hsame, ← h.indexBlock_eq, ← Bool.eq_false_iff.mpr hpend]

theorem Built.addData_spec (h : Built done cur b)
    (hsort : SortedBlocks opts.comparator (done ++ [cur ++ [e]])) (lastKey : Bytes) :
    ∃ b', ({ b with
        lastKey
        indexBlock := ofEntries 1 ((indexSoFar opts 0 (done ++ [cur ++ [e]])).map indexEntry)
        pendingIndexEntry := false } : TableFileBuilder opts).addData e.1 e.2 = some b' ∧
      Built done (cur ++ [e]) b' := by
  have hcur : Increasing opts.comparator.compare (cur ++ [e]) := hsort.pairwise (by simp)
  have hblks : allBlocks (done, cur ++ [e]) = done ++ [cur ++ [e]] := if_neg (by simp)
  refine ⟨{ b with
    indexBlock := ofEntries 1 ((indexSoFar opts 0 (done ++ [cur ++ [e]])).map indexEntry)
    pendingIndexEntry := false
    filterBlock := b.filterBlock.map fun (policy, fb) => (policy, fb.addKey e.1)
    lastKey := e.1
    numEntries := b.numEntries + 1
    dataBlock := ofEntries opts.restartInterval (cur ++ [e]) }, ?_, ?_⟩
  · simp only [addData, h.dataBlock_eq, add_ofEntries hint (eq_nil_or_gt hcur),
      some_bind, Option.pure_def]
  · exact
      { closed_eq := h.closed_eq
        file_eq := h.file_eq
        offset_eq := h.offset_eq
        dataBlock_eq := rfl
        indexBlock_eq := by dsimp only; rw [hblks]
        lastKey_eq := by dsimp only; rw [← append_assoc, lastKeyOf_concat]
        numEntries_eq := by
          dsimp only
          rw [h.numEntries_eq]
          simp [Nat.add_assoc]
        pending_eq := by simp
        handle_eq := fun hempty => by simp at hempty
        filtered := h.filtered.addKey e }

/-- **An entry is added**, and goes where the cut says. -/
theorem Built.add_spec (h : Built done cur b) (hsep : opts.comparator.Separates)
    (hsort : SortedBlocks opts.comparator (done ++ [cur ++ [e]])) :
    ∃ b', b.add e.1 e.2 = some b' ∧
      Built (cutStep opts (done, cur) e).1 (cutStep opts (done, cur) e).2 b' := by
  have hall : Increasing opts.comparator.compare (done.flatten ++ cur ++ [e]) := by
    simpa using hsort.sorted
  have hkey : b.numEntries = 0 ∨ opts.comparator.compare e.1 b.lastKey = .gt := by
    rw [h.numEntries_eq, h.lastKey_eq, length_eq_zero_iff]
    exact eq_nil_or_gt hall
  have hbuf : b.pendingIndexEntry = false ∨ b.dataBlock.buffer = [] := by
    rw [h.dataBlock_eq, buffer_ofEntries_eq_nil hint, ← Bool.not_eq_true, h.pending_eq]
    tauto
  obtain ⟨lastKey, hidx⟩ := h.addIndexEntry_spec hsep hsort
  obtain ⟨b₁, hdata, hbuilt⟩ := h.addData_spec hint hsort lastKey
  have hadd : b.add e.1 e.2 = if opts.blockSize ≤ b₁.dataBlock.currentSizeEstimate then b₁.flush
      else some b₁ := by
    simp only [add, guard, if_pos h.closed_eq, if_pos hkey, if_pos hbuf, Option.pure_def,
      some_bind, hidx, hdata]
  rw [hadd, cutStep, hbuilt.dataBlock_eq]
  dsimp only
  split_ifs with hfull
  · obtain ⟨b', hflush, hbuilt'⟩ := hbuilt.flush_spec hint
    refine ⟨b', hflush, ?_⟩
    rwa [allBlocks, if_neg (by simp)] at hbuilt'
  · exact ⟨b₁, rfl, hbuilt⟩

omit hint in
/-- The cut keeps the entries, and closes no block without one. -/
theorem foldl_cutStep (opts : TableOptions) (entries : List Pair) :
    (entries.foldl (cutStep opts) ([], [])).1.flatten ++
        (entries.foldl (cutStep opts) ([], [])).2 = entries ∧
      ∀ block ∈ (entries.foldl (cutStep opts) ([], [])).1, block ≠ [] := by
  induction entries using List.reverseRecOn with
  | nil => exact ⟨rfl, fun _ hblk => absurd hblk not_mem_nil⟩
  | append_singleton entries e ih =>
    obtain ⟨hflat, hne⟩ := ih
    rw [foldl_append, foldl_cons, foldl_nil]
    generalize entries.foldl (cutStep opts) ([], []) = s at *
    rw [cutStep, ← hflat]
    split_ifs
    · refine ⟨by simp, fun block hblk => ?_⟩
      rcases mem_append.mp hblk with hblk | hblk
      · exact hne block hblk
      · rw [mem_singleton.mp hblk]
        simp
    · exact ⟨by simp, hne⟩

/-- **The builder after all entries.** -/
theorem exists_built_foldlM (hsep : opts.comparator.Separates) {entries : List Pair}
    (hsort : Increasing opts.comparator.compare entries)
    {b₀ : TableFileBuilder opts} (hb₀ : Built [] [] b₀) :
    ∃ b, entries.foldlM (fun b e => b.add e.1 e.2) b₀ = some b ∧
      Built (entries.foldl (cutStep opts) ([], [])).1
        (entries.foldl (cutStep opts) ([], [])).2 b := by
  induction entries using List.reverseRecOn with
  | nil => exact ⟨b₀, rfl, hb₀⟩
  | append_singleton entries e ih =>
    obtain ⟨b, hrun, hbuilt⟩ := ih (pairwise_append.mp hsort).1
    obtain ⟨hflat, hne⟩ := foldl_cutStep opts entries
    have hblks : SortedBlocks opts.comparator ((entries.foldl (cutStep opts) ([], [])).1 ++
        [(entries.foldl (cutStep opts) ([], [])).2 ++ [e]]) := by
      refine ⟨fun block hblk => ?_, ?_⟩
      · rcases mem_append.mp hblk with hblk | hblk
        · exact hne block hblk
        · rw [mem_singleton.mp hblk]
          simp
      · rw [flatten_append, flatten_singleton, ← append_assoc, hflat]
        exact hsort
    obtain ⟨b', hadd, hbuilt'⟩ := hbuilt.add_spec hint hsep hblks
    refine ⟨b', ?_, by rwa [foldl_append]⟩
    rw [foldlM_append, hrun]
    simpa using hadd

end

end TableFileBuilder

/-! ### The file of a table -/

section File

variable (opts : TableOptions) (blocks : List (List Pair))

/-- The bytes of the filter block of a policy. -/
def filterContents (policy : FilterPolicy) : Bytes :=
  contents (internalFilterPolicy policy) (filterBlocks opts 0 blocks)
    (filterCount (filterBlocks opts 0 blocks) ((dataArea opts blocks).length / filterBase))

/-- The filter block as it is in the file. -/
def filterArea : Bytes :=
  opts.filterPolicy.toList.flatMap fun policy =>
    encodeBlock opts.compressor (filterContents opts blocks policy)

/-- The handle of the filter block, if there is one. -/
def metaindexBytes : Bytes :=
  blockBytes 1 (opts.filterPolicy.toList.map fun policy =>
    (filterKey policy.name, (handleAt opts.compressor (dataArea opts blocks).length
      (filterContents opts blocks policy)).encode))

/-- The block with the handles of the data blocks. -/
def indexBytes : Bytes := blockBytes 1 ((tableBlocks opts 0 blocks).map indexEntry)

/-- The blocks of a table in front of the metaindex. -/
def bodyArea : Bytes := dataArea opts blocks ++ filterArea opts blocks

/-- The metaindex as it is stored. -/
def metaindexArea : Bytes := encodeBlock opts.compressor (metaindexBytes opts blocks)

/-- The index as it is stored. -/
def indexArea : Bytes := encodeBlock opts.compressor (indexBytes opts blocks)

/-- The footer of the table. -/
def tableFooter : TableFooter where
  metaindex := handleAt opts.compressor (bodyArea opts blocks).length (metaindexBytes opts blocks)
  index := handleAt opts.compressor
    ((bodyArea opts blocks).length + (metaindexArea opts blocks).length) (indexBytes opts blocks)

/-- **The file of a table with these blocks.** -/
def tableFile : Bytes :=
  bodyArea opts blocks ++ (metaindexArea opts blocks ++
    (indexArea opts blocks ++ (tableFooter opts blocks).encode))

end File

namespace TableFileBuilder

variable {opts : TableOptions} {blocks : List (List Pair)} {b : TableFileBuilder opts}

/-- The filter block is written behind the data. -/
theorem Built.writeFilterBlock_eq (h : Built blocks [] b) :
    b.writeFilterBlock = (opts.filterPolicy.toList.map fun policy =>
        (filterKey policy.name, (handleAt opts.compressor (dataArea opts blocks).length
          (filterContents opts blocks policy)).encode),
      { b with file := bodyArea opts blocks, offset := (bodyArea opts blocks).length }) := by
  rcases hpol : opts.filterPolicy with _ | policy
  · have hbody : bodyArea opts blocks = b.file := by
      rw [bodyArea, filterArea, hpol, h.file_eq]
      simp
    have hoff : (bodyArea opts blocks).length = b.offset := by rw [hbody, h.file_eq, h.offset_eq]
    have hfb := h.filtered.of_none hpol
    rw [hoff, hbody]
    simp only [writeFilterBlock, hfb]
    rw [← hfb]
    rfl
  · obtain ⟨fb, hfb, hr⟩ := h.filtered.of_some policy hpol
    have hfinish : fb.finish (internalFilterPolicy policy) = filterContents opts blocks policy :=
      hr.closeBlock.finish_eq
    have hbody : bodyArea opts blocks =
        b.file ++ encodeBlock opts.compressor (filterContents opts blocks policy) := by
      rw [bodyArea, filterArea, hpol, h.file_eq]
      simp
    have hoff : (bodyArea opts blocks).length = b.offset +
        (encodeBlock opts.compressor (filterContents opts blocks policy)).length := by
      rw [hbody, length_append, h.file_eq, h.offset_eq]
    rw [writeFilterBlock, hfb, hpol, hoff, hbody, ← h.offset_eq]
    simp only [hfinish, writeBlock, ← hfb]
    rfl

/-- The metaindex has one entry at most. -/
theorem foldlM_add_metaindex (policy : Option FilterPolicy) (f : FilterPolicy → Pair)
    (cmp : Compare) :
    (policy.toList.map f).foldlM (fun block e => BlockBuilder.add cmp block e.1 e.2)
      { blockRestartInterval := 1 } = some (ofEntries 1 (policy.toList.map f)) := by
  cases policy with
  | none => rfl
  | some policy =>
    have hadd : (ofEntries 1 []).add cmp (f policy).1 (f policy).2 =
        some (ofEntries 1 [f policy]) :=
      add_ofEntries (le_refl 1) (.inl rfl)
    exact (congrArg (Option.bind · _) hadd).trans rfl

/-- The last index entry. -/
theorem Built.addIndexEntry_findShortSuccessor (h : Built blocks [] b)
    (hsep : opts.comparator.Separates) (hsort : SortedBlocks opts.comparator blocks)
    (file : Bytes) (offset : ℕ) :
    ∃ lastKey, ({ b with file, offset } : TableFileBuilder opts).addIndexEntry
        opts.comparator.findShortSuccessor =
      some { b with
        file
        offset
        lastKey
        indexBlock := ofEntries 1 ((tableBlocks opts 0 blocks).map indexEntry)
        pendingIndexEntry := false } := by
  have hidx : Increasing opts.comparator.compare ((tableBlocks opts 0 blocks).map indexEntry) :=
    pairwise_map.mpr ((key_lt_tableBlocks hsep hsort).imp And.left)
  have hblk : b.indexBlock = ofEntries 1 ((indexSoFar opts 0 blocks).map indexEntry) :=
    h.indexBlock_eq
  rw [addIndexEntry]
  dsimp only
  split_ifs with hpend
  · obtain ⟨-, hblks⟩ := h.pending_eq.mp hpend
    obtain ⟨init, entries, rfl⟩ := (eq_nil_or_concat' blocks).resolve_left hblks
    have hlast : b.lastKey = lastKeyOf entries := by
      rw [h.lastKey_eq, append_nil, flatten_append, flatten_singleton]
      exact lastKeyOf_append _ (hsort.ne_nil entries (by simp))
    rw [tableBlocks_concat, map_append] at hidx
    have hadd := add_ofEntries (le_refl 1) (eq_nil_or_gt hidx)
    refine ⟨opts.comparator.findShortSuccessor b.lastKey, ?_⟩
    rw [tableBlocks_concat, map_append, hblk, h.handle_eq rfl rfl, hlast]
    simp only [Nat.zero_add] at hadd ⊢
    exact congrArg (Option.bind · _) hadd
  · have hblks : blocks = [] := by
      by_contra hblks
      exact hpend (h.pending_eq.mpr ⟨rfl, hblks⟩)
    refine ⟨b.lastKey, ?_⟩
    subst hblks
    rw [← Bool.eq_false_iff.mpr hpend]
    exact congrArg some (by rw [hblk]; rfl)

/-- **A table is finished.** -/
theorem Built.finish_spec {done : List (List Pair)} {cur : List Pair}
    (hint : 1 ≤ opts.restartInterval) (h : Built done cur b) (hsep : opts.comparator.Separates)
    (hsort : SortedBlocks opts.comparator (allBlocks (done, cur))) :
    b.finish.map file = some (tableFile opts (allBlocks (done, cur))) := by
  obtain ⟨b₁, hflush, h₁⟩ := h.flush_spec hint
  generalize allBlocks (done, cur) = blocks at *
  obtain ⟨lastKey, hidx⟩ := h₁.addIndexEntry_findShortSuccessor hsep hsort
    (bodyArea opts blocks ++ metaindexArea opts blocks)
    ((bodyArea opts blocks).length + (metaindexArea opts blocks).length)
  have hmeta : (ofEntries 1 (opts.filterPolicy.toList.map fun policy =>
      (filterKey policy.name, (handleAt opts.compressor (dataArea opts blocks).length
        (filterContents opts blocks policy)).encode))).finish.buffer =
          metaindexBytes opts blocks := rfl
  have hmetaArea : encodeBlock opts.compressor (metaindexBytes opts blocks) =
      metaindexArea opts blocks := rfl
  simp only [finish, guard, if_pos h.closed_eq, hflush, h₁.writeFilterBlock_eq,
    foldlM_add_metaindex, writeBlock, hmeta, hmetaArea, hidx, Option.pure_def,
    some_bind, Option.map_some, tableFile, append_assoc]
  rfl

end TableFileBuilder

/-! ### Blocks of sorted entries -/

section Cut

open TableFileBuilder

variable {opts : TableOptions} {entries : List Pair}

theorem flatten_cutBlocks (opts : TableOptions) (entries : List Pair) :
    (cutBlocks opts entries).flatten = entries := by
  obtain ⟨hflat, -⟩ := foldl_cutStep opts entries
  rw [cutBlocks, allBlocks]
  split_ifs with hcur
  · rwa [hcur, append_nil] at hflat
  · rwa [flatten_append, flatten_singleton]

theorem sortedBlocks_cutBlocks (hsort : Increasing opts.comparator.compare entries) :
    SortedBlocks opts.comparator (cutBlocks opts entries) := by
  refine ⟨fun block hblk => ?_, by rwa [flatten_cutBlocks]⟩
  obtain ⟨-, hne⟩ := foldl_cutStep opts entries
  rw [cutBlocks, allBlocks] at hblk
  split_ifs at hblk with hcur
  · exact hne block hblk
  · rcases mem_append.mp hblk with hblk | hblk
    · exact hne block hblk
    · rwa [mem_singleton.mp hblk]

/-- **What is written for sorted entries**: no assertion fails, and the file has the blocks that the
entries are cut into. -/
theorem buildTable_eq (hint : 1 ≤ opts.restartInterval) (hsep : opts.comparator.Separates)
    (hsort : Increasing opts.comparator.compare entries) :
    buildTable opts entries = some (tableFile opts (cutBlocks opts entries)) := by
  obtain ⟨b₀, hnew, hb₀⟩ := exists_built hint
  obtain ⟨b, hrun, hb⟩ := exists_built_foldlM hint hsep hsort hb₀
  have hfile := hb.finish_spec hint hsep (sortedBlocks_cutBlocks hsort)
  rw [Option.map_eq_bind] at hfile
  simp only [buildTable, hnew, hrun, some_bind]
  exact hfile

end Cut

end PulsearcDb
