import PulsearcDb.Filter
import Mathlib.Data.List.Induction

/-!
# Filter blocks

A filter block (`filter_block/filter_block.rs`) has one filter for each slot of 2 KiB of the data
area of a table. All keys of the data blocks that start in a slot go into its filter; slots in which
no data block starts have an empty one. The reader finds the filter by the offset of a data block.

`slotFilter` is the filter of a slot as a function of the blocks. The builder has written the
filters of all slots before the current one (`Reached`), and on its bytes the reader looks at the
filter of the slot (`FilterBlockReader.keyMayMatch_finish`). A filter without bytes reads as one
that has no key, so a policy that matches every key and writes nothing hides every key.
-/

namespace PulsearcDb

open List

/-- The logarithm of the slot size. -/
def filterBaseLg : ℕ := 11

/-- A filter for each 2 KiB of the file. -/
def filterBase : ℕ := 1 <<< filterBaseLg

/-! ### The builder -/

/-- `struct FilterBlockBuilder`. -/
structure FilterBlockBuilder where
  keys : Bytes := []
  start : List ℕ := []
  result : Bytes := []
  filterOffsets : List ℕ := []

namespace FilterBlockBuilder

/-- The keys that have been added, cut out of `keys` at the offsets in `start` and the sentinel. -/
def keySlices (b : FilterBlockBuilder) : List Bytes :=
  let start := b.start ++ [b.keys.length]
  (List.range b.start.length).map fun i =>
    (b.keys.take (start.getD (i + 1) 0)).drop (start.getD i 0)

/-- The filter of the pending keys; without keys only an offset. -/
def generateFilter (policy : FilterPolicy) (b : FilterBlockBuilder) : FilterBlockBuilder :=
  if b.start.length = 0 then
    { b with filterOffsets := b.filterOffsets ++ [b.result.length % 2 ^ 32] }
  else
    { keys := []
      start := []
      result := b.result ++ policy.createFilter b.keySlices
      filterOffsets := b.filterOffsets ++ [b.result.length % 2 ^ 32] }

/-- The loop adds one filter a round until there are as many as the slot has before it. -/
def startBlock (policy : FilterPolicy) (b : FilterBlockBuilder) (blockOffset : ℕ) :
    FilterBlockBuilder :=
  (generateFilter policy)^[blockOffset / filterBase - b.filterOffsets.length] b

/-- A key of the current block. -/
def addKey (b : FilterBlockBuilder) (key : Bytes) : FilterBlockBuilder :=
  { b with start := b.start ++ [b.keys.length], keys := b.keys ++ key }

/-- The filters, their offsets and the parameters. -/
def finish (policy : FilterPolicy) (b : FilterBlockBuilder) : Bytes :=
  let b := if b.start = [] then b else b.generateFilter policy
  b.result ++ (b.filterOffsets.flatMap putFixed32 ++
    (putFixed32 (b.result.length % 2 ^ 32) ++ [UInt8.ofNat filterBaseLg]))

end FilterBlockBuilder

/-! ### The reader -/

/-- `struct FilterBlockReader`. -/
structure FilterBlockReader where
  data : Bytes
  offsetArrayStart : ℕ
  numFilters : ℕ
  baseLg : ℕ

namespace FilterBlockReader

/-- `None` for contents that cannot be a filter block. -/
def new (contents : Bytes) : Option FilterBlockReader :=
  let n := contents.length
  if n < 5 then none
  else
    let arrayOffset := decodeFixed32 (contents.drop (n - 5))
    if arrayOffset > n - 5 then none
    else some
      { data := contents
        offsetArrayStart := arrayOffset
        numFilters := (n - 5 - arrayOffset) / 4
        baseLg := (contents.getD (n - 1) 0).toNat }

/-- An entry of the offset array. -/
def offsetAt (r : FilterBlockReader) (index : ℕ) : ℕ :=
  decodeFixed32 (r.data.drop (r.offsetArrayStart + index * 4))

/-- Ask the filter of the slot; an empty one matches nothing. -/
def keyMayMatch (policy : FilterPolicy) (r : FilterBlockReader) (blockOffset : ℕ) (key : Bytes) :
    Bool :=
  let index := blockOffset >>> r.baseLg
  if index ≥ r.numFilters then true
  else
    let start := r.offsetAt index
    let limit := if index + 1 < r.numFilters then r.offsetAt (index + 1) else r.offsetArrayStart
    if start ≤ limit ∧ limit ≤ r.offsetArrayStart then
      if start = limit then false
      else policy.keyMayMatch key ((r.data.take limit).drop start)
    else true

end FilterBlockReader

/-! ### The filters of the slots -/

section Slots

variable (policy : FilterPolicy) (blocks : List (ℕ × List Bytes))

/-- The keys of the data blocks that start in a slot. A block is its offset with its keys. -/
def slotKeys (slot : ℕ) : List Bytes :=
  (blocks.filter fun block => block.1 / filterBase = slot).flatMap Prod.snd

/-- The filter of a slot. -/
def slotFilter (slot : ℕ) : Bytes :=
  if slotKeys blocks slot = [] then [] else policy.createFilter (slotKeys blocks slot)

/-- The filters of the first slots, one after the other. -/
def filtersBefore (slot : ℕ) : Bytes := (List.range slot).flatMap (slotFilter policy blocks)

theorem filtersBefore_succ (slot : ℕ) :
    filtersBefore policy blocks (slot + 1) =
      filtersBefore policy blocks slot ++ slotFilter policy blocks slot := by
  simp [filtersBefore, range_succ]

variable {policy blocks}

variable {block : ℕ × List Bytes}

theorem mem_slotKeys {key : Bytes} (hblk : block ∈ blocks) (hkey : key ∈ block.2) :
    key ∈ slotKeys blocks (block.1 / filterBase) :=
  mem_flatMap.mpr ⟨block, mem_filter.mpr ⟨hblk, decide_eq_true rfl⟩, hkey⟩

theorem slotKeys_ne_nil (hblk : block ∈ blocks) (hkeys : block.2 ≠ []) :
    slotKeys blocks (block.1 / filterBase) ≠ [] := by
  obtain ⟨key, hkey⟩ := exists_mem_of_ne_nil _ hkeys
  exact ne_nil_of_mem (mem_slotKeys hblk hkey)

theorem slotKeys_concat (block : ℕ × List Bytes) (slot : ℕ) :
    slotKeys (blocks ++ [block]) slot =
      slotKeys blocks slot ++ if block.1 / filterBase = slot then block.2 else [] := by
  rw [slotKeys, slotKeys, filter_append, flatMap_append]
  split_ifs with h <;> simp [h]

theorem slotKeys_eq_nil {slot : ℕ} (h : ∀ block ∈ blocks, block.1 / filterBase ≠ slot) :
    slotKeys blocks slot = [] := by
  rw [slotKeys, filter_eq_nil_iff.mpr fun block hblk => by simp [h block hblk], flatMap_nil]

theorem filtersBefore_congr {blocks' : List (ℕ × List Bytes)} {slot : ℕ}
    (h : ∀ i < slot, slotKeys blocks i = slotKeys blocks' i) :
    filtersBefore policy blocks slot = filtersBefore policy blocks' slot := by
  rw [filtersBefore, filtersBefore, flatMap_def, flatMap_def]
  refine congrArg List.flatten (map_congr_left fun i hi => ?_)
  rw [slotFilter, slotFilter, h i (mem_range.mp hi)]

theorem filtersBefore_concat {slot : ℕ} (h : slot ≤ block.1 / filterBase) :
    filtersBefore policy (blocks ++ [block]) slot = filtersBefore policy blocks slot :=
  filtersBefore_congr fun i hi => by
    rw [slotKeys_concat, if_neg (by omega), append_nil]

theorem slotKeys_concat_nil (blockOffset slot : ℕ) :
    slotKeys (blocks ++ [(blockOffset, [])]) slot = slotKeys blocks slot := by
  rw [slotKeys_concat]
  simp

theorem filtersBefore_concat_nil (blockOffset slot : ℕ) :
    filtersBefore policy (blocks ++ [(blockOffset, [])]) slot = filtersBefore policy blocks slot :=
  filtersBefore_congr fun i _ => slotKeys_concat_nil blockOffset i

theorem exists_filtersBefore_append {i j : ℕ} (h : i ≤ j) :
    ∃ rest, filtersBefore policy blocks j = filtersBefore policy blocks i ++ rest := by
  induction j, h using Nat.le_induction with
  | base => exact ⟨[], (append_nil _).symm⟩
  | succ j _ ih =>
    obtain ⟨rest, hrest⟩ := ih
    exact ⟨rest ++ slotFilter policy blocks j, by rw [filtersBefore_succ, hrest, append_assoc]⟩

theorem length_filtersBefore_le {i j : ℕ} (h : i ≤ j) :
    (filtersBefore policy blocks i).length ≤ (filtersBefore policy blocks j).length := by
  obtain ⟨rest, hrest⟩ := @exists_filtersBefore_append policy blocks i j h
  rw [hrest, length_append]
  exact Nat.le_add_right _ _

/-- Behind the last block there are no filters. -/
theorem filtersBefore_eq {i j : ℕ} (h : ∀ block ∈ blocks, block.1 / filterBase < i) (hij : i ≤ j) :
    filtersBefore policy blocks j = filtersBefore policy blocks i := by
  induction j, hij using Nat.le_induction with
  | base => rfl
  | succ j hj ih =>
    have hkeys : slotKeys blocks j = [] :=
      slotKeys_eq_nil fun block hblk => ((h block hblk).trans_le hj).ne
    rw [filtersBefore_succ, slotFilter, if_pos hkeys, append_nil, ih]

end Slots

namespace FilterBlockBuilder

/-! ### What the builder has written -/

variable {policy : FilterPolicy} {b : FilterBlockBuilder} {keys : List Bytes}
  {blocks : List (ℕ × List Bytes)} {slot : ℕ}

/-- The keys that wait for a filter. -/
structure Holds (b : FilterBlockBuilder) (keys : List Bytes) : Prop where
  keys_eq : b.keys = keys.flatten
  start_eq : b.start = (List.range keys.length).map fun i => (keys.take i).flatten.length

theorem Holds.addKey (h : Holds b keys) (key : Bytes) : Holds (b.addKey key) (keys ++ [key]) := by
  refine ⟨by simp [FilterBlockBuilder.addKey, h.keys_eq], ?_⟩
  change b.start ++ [b.keys.length] = _
  rw [h.start_eq, h.keys_eq, length_append, length_singleton, range_succ, map_append]
  refine congrArg₂ _ (map_congr_left fun i hi => ?_) (by simp)
  rw [take_append_of_le_length (mem_range.mp hi).le]

theorem Holds.keySlices (h : Holds b keys) : b.keySlices = keys := by
  have hs : ∀ i ≤ keys.length, (b.start ++ [b.keys.length]).getD i 0 =
      (keys.take i).flatten.length := fun i hi => by
    rw [h.start_eq, h.keys_eq]
    rcases hi.lt_or_eq with hlt | rfl
    · simp [getElem?_append_left, hlt]
    · simp
  refine ext_getElem? fun i => ?_
  rw [FilterBlockBuilder.keySlices]
  rcases lt_or_ge i keys.length with hi | hi
  · have hlen : i < b.start.length := by simpa [h.start_eq] using hi
    rw [getElem?_map, getElem?_range hlen, Option.map_some, hs i hi.le, hs (i + 1) hi, h.keys_eq]
    have hsplit : keys.flatten = (keys.take (i + 1)).flatten ++ (keys.drop (i + 1)).flatten := by
      rw [← flatten_append, take_append_drop]
    rw [hsplit, take_left, take_succ_eq_append_getElem hi, flatten_append,
      drop_left, getElem?_eq_getElem hi]
    simp
  · have hlen : b.start.length ≤ i := by simpa [h.start_eq] using hi
    rw [getElem?_eq_none (by simpa using hlen), getElem?_eq_none hi]

theorem Holds.length_start (h : Holds b keys) : b.start.length = keys.length := by
  simp [h.start_eq]

/-- **The builder has come to a slot**: it has written the filters of the slots before, and the keys
of the slot wait. -/
structure Reached (policy : FilterPolicy) (blocks : List (ℕ × List Bytes)) (slot : ℕ)
    (b : FilterBlockBuilder) : Prop where
  holds : Holds b (slotKeys blocks slot)
  result_eq : b.result = filtersBefore policy blocks slot
  offsets_eq : b.filterOffsets =
    (List.range slot).map fun i => (filtersBefore policy blocks i).length % 2 ^ 32
  le : ∀ block ∈ blocks, block.1 / filterBase ≤ slot

theorem reached_new (policy : FilterPolicy) : Reached policy [] 0 {} :=
  ⟨⟨rfl, rfl⟩, rfl, rfl, fun _ h => absurd h not_mem_nil⟩

section

variable (h : Reached policy blocks slot b)
include h

/-- What a filter that is generated adds. -/
theorem Reached.generateFilter_eq :
    (b.generateFilter policy).result = filtersBefore policy blocks (slot + 1) ∧
      (b.generateFilter policy).filterOffsets = b.filterOffsets ++ [b.result.length % 2 ^ 32] ∧
      Holds (b.generateFilter policy) [] := by
  have hlen := h.holds.length_start
  rw [filtersBefore_succ, ← h.result_eq, slotFilter, generateFilter]
  by_cases hkeys : slotKeys blocks slot = []
  · rw [if_pos hkeys, if_pos (by simp [hlen, hkeys]), append_nil]
    have hh := h.holds
    rw [hkeys] at hh
    exact ⟨rfl, rfl, hh.keys_eq, hh.start_eq⟩
  · rw [if_neg hkeys, if_neg (by simpa [hlen] using hkeys), h.holds.keySlices]
    exact ⟨rfl, rfl, rfl, rfl⟩

theorem Reached.generateFilter : Reached policy blocks (slot + 1) (b.generateFilter policy) := by
  obtain ⟨hres, hoffs, hh⟩ := h.generateFilter_eq
  refine ⟨?_, hres, ?_, fun block hblk => (h.le block hblk).trans (Nat.le_succ slot)⟩
  · rwa [slotKeys_eq_nil fun block hblk => ((h.le block hblk).trans_lt (Nat.lt_succ_self _)).ne]
  · rw [hoffs, h.offsets_eq, h.result_eq, range_succ, map_append]
    rfl

theorem Reached.iterate (n : ℕ) :
    Reached policy blocks (slot + n) ((FilterBlockBuilder.generateFilter policy)^[n] b) := by
  induction n with
  | zero => exact h
  | succ n ih =>
    rw [Function.iterate_succ_apply']
    exact ih.generateFilter

variable {blockOffset : ℕ}

theorem Reached.startBlock (hle : slot ≤ blockOffset / filterBase) :
    Reached policy blocks (blockOffset / filterBase) (b.startBlock policy blockOffset) := by
  have hlen : b.filterOffsets.length = slot := by simp [h.offsets_eq]
  have hiterate := h.iterate (blockOffset / filterBase - slot)
  rw [Nat.add_sub_cancel' hle] at hiterate
  rwa [FilterBlockBuilder.startBlock, hlen]

/-- A data block that starts in the slot, with its keys so far. -/
theorem Reached.openBlock (hslot : blockOffset / filterBase = slot) :
    Reached policy (blocks ++ [(blockOffset, [])]) slot b := by
  refine ⟨?_, ?_, ?_, fun block hblk => ?_⟩
  · simpa only [slotKeys_concat_nil] using h.holds
  · simpa only [filtersBefore_concat_nil] using h.result_eq
  · simpa only [filtersBefore_concat_nil] using h.offsets_eq
  · rcases mem_append.mp hblk with hblk | hblk
    · exact h.le block hblk
    · rw [mem_singleton.mp hblk, hslot]

omit h in
/-- A data block that got no keys. -/
theorem Reached.closeBlock (h : Reached policy (blocks ++ [(blockOffset, [])]) slot b) :
    Reached policy blocks slot b where
  holds := by simpa only [slotKeys_concat_nil] using h.holds
  result_eq := by simpa only [filtersBefore_concat_nil] using h.result_eq
  offsets_eq := by simpa only [filtersBefore_concat_nil] using h.offsets_eq
  le block hblk := h.le block (mem_append_left _ hblk)

omit h in
theorem Reached.addKey (h : Reached policy (blocks ++ [(blockOffset, keys)]) slot b)
    (hslot : blockOffset / filterBase = slot) (key : Bytes) :
    Reached policy (blocks ++ [(blockOffset, keys ++ [key])]) slot (b.addKey key) := by
  have hfilters : ∀ ks, ∀ i ≤ slot, filtersBefore policy (blocks ++ [(blockOffset, ks)]) i =
      filtersBefore policy blocks i := fun ks i hi => filtersBefore_concat (by rwa [hslot])
  refine ⟨?_, ?_, ?_, fun block hblk => ?_⟩
  · have hh := h.holds.addKey key
    rw [slotKeys_concat, if_pos hslot] at hh ⊢
    rwa [append_assoc] at hh
  · exact h.result_eq.trans ((hfilters _ slot le_rfl).trans (hfilters _ slot le_rfl).symm)
  · refine h.offsets_eq.trans (map_congr_left fun i hi => ?_)
    have hi := (mem_range.mp hi).le
    rw [hfilters _ i hi, hfilters _ i hi]
  · rcases mem_append.mp hblk with hblk | hblk
    · exact h.le block (mem_append_left _ hblk)
    · rw [mem_singleton.mp hblk, hslot]

theorem Reached.addKeys (hslot : blockOffset / filterBase = slot) (keys : List Bytes) :
    Reached policy (blocks ++ [(blockOffset, keys)]) slot
      (keys.foldl FilterBlockBuilder.addKey b) := by
  induction keys using List.reverseRecOn with
  | nil => exact h.openBlock hslot
  | append_singleton keys key ih =>
    rw [foldl_append]
    exact ih.addKey hslot key

/-- The builder after `start_block` and the keys of each block. -/
def build (policy : FilterPolicy) (blocks : List (ℕ × List Bytes)) : FilterBlockBuilder :=
  blocks.foldl
    (fun b block => block.2.foldl FilterBlockBuilder.addKey (b.startBlock policy block.1)) {}

omit h in
/-- **The builder after all blocks**, which come by offset, is at the slot of the last one. -/
theorem exists_reached_build (policy : FilterPolicy)
    (hsort : blocks.Pairwise fun a b => a.1 ≤ b.1) :
    ∃ slot, Reached policy blocks slot (build policy blocks) ∧
      (slot = 0 ∨ ∃ block ∈ blocks, block.1 / filterBase = slot) := by
  induction blocks using List.reverseRecOn with
  | nil => exact ⟨0, reached_new policy, .inl rfl⟩
  | append_singleton blocks block ih =>
    obtain ⟨hbefore, -, hle⟩ := pairwise_append.mp hsort
    obtain ⟨slot, hreached, hslot⟩ := ih hbefore
    have hslot : slot ≤ block.1 / filterBase := by
      rcases hslot with rfl | ⟨last, hlast, rfl⟩
      · exact Nat.zero_le _
      · exact Nat.div_le_div_right (hle last hlast block (mem_singleton_self block))
    refine ⟨block.1 / filterBase, ?_, .inr ⟨block, by simp, rfl⟩⟩
    rw [build, foldl_append]
    exact (hreached.startBlock hslot).addKeys rfl block.2

/-- The bytes of a filter block with the filters of the first slots. -/
def contents (policy : FilterPolicy) (blocks : List (ℕ × List Bytes)) (slots : ℕ) : Bytes :=
  filtersBefore policy blocks slots ++
    (((List.range slots).map fun i => (filtersBefore policy blocks i).length % 2 ^ 32).flatMap
        putFixed32 ++
      (putFixed32 ((filtersBefore policy blocks slots).length % 2 ^ 32) ++
        [UInt8.ofNat filterBaseLg]))

/-- The number of filters: the last slot has one if it has keys. -/
def filterCount (blocks : List (ℕ × List Bytes)) (slot : ℕ) : ℕ :=
  if slotKeys blocks slot = [] then slot else slot + 1

theorem Reached.finish_eq : b.finish policy = contents policy blocks (filterCount blocks slot) := by
  have hs : b.start = [] ↔ slotKeys blocks slot = [] := by
    rw [← length_eq_zero_iff, ← length_eq_zero_iff, h.holds.length_start]
  rw [finish, filterCount, contents]
  by_cases hkeys : slotKeys blocks slot = []
  · rw [if_pos (hs.mpr hkeys), if_pos hkeys, h.result_eq, h.offsets_eq]
  · have hnext := h.generateFilter
    rw [if_neg (mt hs.mp hkeys), if_neg hkeys, hnext.result_eq, hnext.offsets_eq]

end

end FilterBlockBuilder

namespace FilterBlockReader

open FilterBlockBuilder

variable {policy : FilterPolicy} {b : FilterBlockBuilder} {blocks : List (ℕ × List Bytes)}
  {slot slots : ℕ}

theorem length_contents : (contents policy blocks slots).length =
    (filtersBefore policy blocks slots).length + slots * 4 + 5 := by
  rw [contents, length_append, length_append, length_append,
    length_flatMap_putFixed32, length_putFixed32, length_map, length_range,
    length_singleton]
  omega

/-- What is read of any filter block: the offset of the array is a `u32`. -/
theorem new_contents_mod : new (contents policy blocks slots) = some
    { data := contents policy blocks slots
      offsetArrayStart := (filtersBefore policy blocks slots).length % 2 ^ 32
      numFilters := ((filtersBefore policy blocks slots).length + slots * 4 -
        (filtersBefore policy blocks slots).length % 2 ^ 32) / 4
      baseLg := filterBaseLg } := by
  have hlen := @length_contents policy blocks slots
  have harray : (contents policy blocks slots).drop ((contents policy blocks slots).length - 5) =
      putFixed32 ((filtersBefore policy blocks slots).length % 2 ^ 32) ++
        [UInt8.ofNat filterBaseLg] := by
    rw [hlen, Nat.add_sub_cancel, contents, ← append_assoc]
    refine drop_left' ?_
    rw [length_append, length_flatMap_putFixed32, length_map, length_range]
  have hbase : (contents policy blocks slots).getD ((contents policy blocks slots).length - 1) 0 =
      UInt8.ofNat filterBaseLg := by
    have hlast : ∀ (l : Bytes) (x : UInt8), (l ++ [x]).getD ((l ++ [x]).length - 1) 0 = x := by simp
    rw [contents, ← append_assoc, ← append_assoc, hlast]
  have hmod := Nat.mod_le (filtersBefore policy blocks slots).length (2 ^ 32)
  rw [new, harray, hbase, decodeFixed32_putFixed32 _ (Nat.mod_lt _ (by norm_num)), hlen,
    Nat.add_sub_cancel, if_neg (by omega), if_neg (by omega)]
  rfl

theorem new_contents (hsize : (filtersBefore policy blocks slots).length < 2 ^ 32) :
    new (contents policy blocks slots) = some
      { data := contents policy blocks slots
        offsetArrayStart := (filtersBefore policy blocks slots).length
        numFilters := slots
        baseLg := filterBaseLg } := by
  rw [new_contents_mod, Nat.mod_eq_of_lt hsize, Nat.add_sub_cancel_left,
    Nat.mul_div_cancel _ (by norm_num)]

/-- The reader looks at the filter of the slot. -/
theorem keyMayMatch_contents (hsize : (filtersBefore policy blocks slots).length < 2 ^ 32)
    {blockOffset : ℕ} (hslot : blockOffset / filterBase < slots) (key : Bytes) :
    keyMayMatch policy
        { data := contents policy blocks slots
          offsetArrayStart := (filtersBefore policy blocks slots).length
          numFilters := slots
          baseLg := filterBaseLg } blockOffset key =
      if slotFilter policy blocks (blockOffset / filterBase) = [] then false
      else policy.keyMayMatch key (slotFilter policy blocks (blockOffset / filterBase)) := by
  have hidx : blockOffset >>> filterBaseLg = blockOffset / filterBase := by
    rw [Nat.shiftRight_eq_div_pow]
    rfl
  generalize hi : blockOffset / filterBase = i at *
  have hle : ∀ j ≤ slots, (filtersBefore policy blocks j).length < 2 ^ 32 := fun j hj =>
    (length_filtersBefore_le hj).trans_lt hsize
  have hoff : ∀ j < slots, decodeFixed32 ((contents policy blocks slots).drop
      ((filtersBefore policy blocks slots).length + j * 4)) =
        (filtersBefore policy blocks j).length := fun j hj =>
    decodeFixed32_drop_array (by simpa [hj] using hle j hj.le) (hle j hj.le) _ _
  have hlimit : (if i + 1 < slots then decodeFixed32 ((contents policy blocks slots).drop
      ((filtersBefore policy blocks slots).length + (i + 1) * 4))
        else (filtersBefore policy blocks slots).length) =
      (filtersBefore policy blocks (i + 1)).length := by
    split_ifs with hnext
    · exact hoff (i + 1) hnext
    · rw [show slots = i + 1 by omega]
  have hs : (filtersBefore policy blocks i).length ≤
      (filtersBefore policy blocks (i + 1)).length :=
    length_filtersBefore_le (Nat.le_succ i)
  have hend : (filtersBefore policy blocks (i + 1)).length ≤
      (filtersBefore policy blocks slots).length := length_filtersBefore_le hslot
  have hpre : (contents policy blocks slots).take (filtersBefore policy blocks (i + 1)).length =
      filtersBefore policy blocks (i + 1) := by
    obtain ⟨rest, hrest⟩ := @exists_filtersBefore_append policy blocks (i + 1) slots hslot
    rw [contents, hrest, append_assoc, take_left]
  rw [keyMayMatch]
  dsimp only [offsetAt]
  rw [hidx, if_neg (by omega), hoff i hslot, hlimit, if_pos ⟨hs, hend⟩, hpre,
    filtersBefore_succ, drop_left, length_append]
  by_cases he : slotFilter policy blocks i = []
  · rw [if_pos he, if_pos (by simp [he])]
  · rw [if_neg he, if_neg (by simpa using he)]

/-- For a block with keys the reader asks the filter that was made of all keys of its slot, unless
this filter has no bytes. -/
theorem exists_reader_contents (hle : ∀ block ∈ blocks, block.1 / filterBase ≤ slot)
    (hsize : (filtersBefore policy blocks (filterCount blocks slot)).length < 2 ^ 32) :
    ∃ r, new (contents policy blocks (filterCount blocks slot)) = some r ∧
      ∀ block ∈ blocks, block.2 ≠ [] → ∀ key,
        r.keyMayMatch policy block.1 key =
          if policy.createFilter (slotKeys blocks (block.1 / filterBase)) = [] then false
          else policy.keyMayMatch key
            (policy.createFilter (slotKeys blocks (block.1 / filterBase))) := by
  refine ⟨_, new_contents hsize, fun block hblk hkeys key => ?_⟩
  have hne := slotKeys_ne_nil hblk hkeys
  have hslot : block.1 / filterBase < filterCount blocks slot := by
    rw [filterCount]
    rcases (hle block hblk).lt_or_eq with hlt | heq
    · split_ifs <;> omega
    · rw [if_neg (heq ▸ hne)]
      omega
  rw [keyMayMatch_contents hsize hslot, slotFilter, if_neg hne]

/-- **The filter block of a run of the builder.** -/
theorem keyMayMatch_finish (h : Reached policy blocks slot b)
    (hsize : ∀ slots, (filtersBefore policy blocks slots).length < 2 ^ 32) :
    ∃ r, new (b.finish policy) = some r ∧ ∀ block ∈ blocks, block.2 ≠ [] → ∀ key,
      r.keyMayMatch policy block.1 key =
        if policy.createFilter (slotKeys blocks (block.1 / filterBase)) = [] then false
        else policy.keyMayMatch key
          (policy.createFilter (slotKeys blocks (block.1 / filterBase))) := by
  rw [h.finish_eq]
  exact exists_reader_contents h.le (hsize _)

/-- No key that was added for a block is hidden by the finished filter block. -/
def Finds (policy : FilterPolicy) (blocks : List (ℕ × List Bytes)) : Prop :=
  ∃ r, new ((build policy blocks).finish policy) = some r ∧
    ∀ block ∈ blocks, ∀ key ∈ block.2, r.keyMayMatch policy block.1 key = true

/-- The offsets of the filters are `u32`. -/
def FiltersFit (policy : FilterPolicy) (blocks : List (ℕ × List Bytes)) : Prop :=
  ∀ slots, (filtersBefore policy blocks slots).length < 2 ^ 32

/-- For every block with keys, the filter of its slot has bytes. -/
def FiltersNonEmpty (policy : FilterPolicy) (blocks : List (ℕ × List Bytes)) : Prop :=
  ∀ block ∈ blocks, block.2 ≠ [] →
    policy.createFilter (slotKeys blocks (block.1 / filterBase)) ≠ []

/-- **No key is hidden** if the filters have less than 4 GiB and none of a slot with keys is empty,
for every policy that has no false negatives. Within this bound a key is hidden if the filter of its
slot has no bytes. -/
theorem finds_iff (hhonest : policy.Honest) (hsort : blocks.Pairwise fun a b => a.1 ≤ b.1) :
    (FiltersFit policy blocks ∧ FiltersNonEmpty policy blocks → Finds policy blocks) ∧
      (FiltersFit policy blocks → Finds policy blocks → FiltersNonEmpty policy blocks) := by
  obtain ⟨slot, hreached, -⟩ := exists_reached_build policy hsort
  constructor
  · rintro ⟨hsize, hnonEmpty⟩
    obtain ⟨r, hnew, hread⟩ := keyMayMatch_finish hreached hsize
    refine ⟨r, hnew, fun block hblk key hkey => ?_⟩
    have hkeys := ne_nil_of_mem hkey
    rw [hread block hblk hkeys, if_neg (hnonEmpty block hblk hkeys)]
    exact hhonest _ _ (mem_slotKeys hblk hkey)
  · rintro hsize ⟨r', hnew', hfinds⟩ block hblk hkeys he
    obtain ⟨r, hnew, hread⟩ := keyMayMatch_finish hreached hsize
    obtain rfl : r = r' := Option.some.inj (hnew.symm.trans hnew')
    obtain ⟨key, hkey⟩ := exists_mem_of_ne_nil _ hkeys
    have hfound := hfinds block hblk key hkey
    rw [hread block hblk hkeys, if_pos he] at hfound
    exact absurd hfound (by decide)

/-- Two blocks of one slot and a block of a later one, with Bloom filters. -/
theorem finds_bloom :
    Finds (bloomFilterPolicy 10) [(0, [[97], [98]]), (1500, [[99]]), (9000, [[100]])] := by
  refine (finds_iff (honest_bloomFilterPolicy 10) (by decide)).1 ⟨fun slots => ?_,
    fun _ hblk hkeys => nonEmpty_bloomFilterPolicy 10 _ (slotKeys_ne_nil hblk hkeys)⟩
  have hlen : (filtersBefore (bloomFilterPolicy 10)
        [(0, [[97], [98]]), (1500, [[99]]), (9000, [[100]])] 5).length < 2 ^ 32 := by decide +kernel
  rcases le_total slots 5 with hle | hle
  · exact (length_filtersBefore_le hle).trans_lt hlen
  · rwa [filtersBefore_eq (by decide) hle]

/-- The documented policy that matches every key and writes no bytes hides the only key. -/
theorem not_finds_alwaysMatch : alwaysMatch.Honest ∧ ¬ Finds alwaysMatch [(0, [[107]])] := by
  refine ⟨honest_alwaysMatch, ?_⟩
  rintro ⟨r, hnew, hfinds⟩
  obtain rfl : _ = r := Option.some.inj ((by rfl : _ = some _).symm.trans hnew)
  exact absurd (hfinds (0, [[107]]) (by simp) [107] (by simp)) (by decide)

end FilterBlockReader

end PulsearcDb
