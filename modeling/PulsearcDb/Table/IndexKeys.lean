import PulsearcDb.Table.MemoryBuilder
import PulsearcDb.Table.RoundTrip

/-!
# The keys of an index

The index of a table has one key for each block, which the comparator of internal keys makes from
the last key of the block (`format/dbformat.rs`): a separator from the first key of the next block,
or a successor for the last block. Such a key is the internal key itself or a shorter user key with
the first of all tags, so it is an internal key again.

`IndexKeys` says where the keys lie. It holds for the blocks of every table of sorted entries, with
any block size, and so the index takes every key in its order: no assertion of the builders fails.
-/

namespace PulsearcDb

open IndexedBlock

/-! ### Separators and successors are internal keys -/

section Retag

variable {c : Comparator} {ik short : Bytes}

theorem le_length_retag (c : Comparator) (short : Bytes) (hik : 8 ≤ ik.length) :
    8 ≤ (retag c ik short).length := by
  rcases retag_cases c ik short with heq | ⟨heq, -⟩
  · rwa [heq]
  · rw [heq, length_internalKey]
    exact Nat.le_add_left 8 _

theorem IsInternalKey.retag (c : Comparator) (short : Bytes) (hik : IsInternalKey ik) :
    IsInternalKey (retag c ik short) := by
  rcases retag_cases c ik short with heq | ⟨heq, -⟩
  · rwa [heq]
  · exact ⟨short, maxSequenceNumber, .value, le_rfl, heq⟩

end Retag

/-! ### The keys of the blocks -/

/-- **The keys of an index separate its blocks.** -/
structure IndexKeys (cmp : Compare) (index : List IndexedBlock) : Prop where
  /-- The keys are long enough for a tag, and they are internal keys if the keys of the blocks
  are. -/
  tagged : ∀ b ∈ index, 8 ≤ b.key.length
  wellFormed : (∀ b ∈ index, ∀ e ∈ b.entries, IsInternalKey e.1) →
    ∀ b ∈ index, IsInternalKey b.key
  increasing : index.Pairwise fun a b => cmp a.key b.key = .lt
  le_key : ∀ b ∈ index, ∀ e ∈ b.entries, (cmp e.1 b.key).isLE
  key_lt : index.Pairwise fun a b => ∀ e ∈ b.entries, cmp a.key e.1 = .lt

variable {c : Comparator} {opts : TableOptions} {blocks : List (List Pair)}

/-- The key of a block is made from its last key. -/
theorem key_of_mem_tableBlocks {offset : ℕ} {b : IndexedBlock}
    (hb : b ∈ tableBlocks opts offset blocks) :
    (∃ limit, b.key = opts.comparator.findShortestSeparator (lastKeyOf b.entries) limit) ∨
      b.key = opts.comparator.findShortSuccessor (lastKeyOf b.entries) := by
  fun_induction tableBlocks opts offset blocks with
  | case1 => cases hb
  | case2 offset entries =>
    obtain rfl := List.mem_singleton.mp hb
    exact .inr rfl
  | case3 offset entries next rest ih =>
    rcases List.mem_cons.mp hb with rfl | hb
    · exact .inl ⟨firstKeyOf next, rfl⟩
    · exact ih hb

variable {blockSize restartInterval : ℕ} {filterPolicy : Option FilterPolicy}
  {compressor : Option Compressor}

/-- The key of a block is an entry's key with a tag that may be another one. -/
theorem exists_retag_of_mem_tableBlocks {offset : ℕ} (hne : ∀ entries ∈ blocks, entries ≠ [])
    {b : IndexedBlock} (hb : b ∈ tableBlocks
      (internalTableOptions c blockSize restartInterval filterPolicy compressor) offset blocks) :
    ∃ e ∈ b.entries, ∃ short, b.key = retag c e.1 short := by
  obtain ⟨e, he, hlast⟩ := exists_lastKeyOf (hne _ (entries_mem_of_mem_tableBlocks hb))
  refine ⟨e, he, ?_⟩
  rw [← hlast]
  rcases key_of_mem_tableBlocks hb with ⟨limit, hkey⟩ | hkey
  · exact ⟨_, hkey⟩
  · exact ⟨_, hkey⟩

theorem indexKeys_tableBlocks (hc : c.Separates)
    (hsort : SortedBlocks (internalKeyComparator c) blocks)
    (htagged : ∀ entries ∈ blocks, ∀ e ∈ entries, 8 ≤ e.1.length) (offset : ℕ) :
    IndexKeys (icmp c)
      (tableBlocks (internalTableOptions c blockSize restartInterval filterPolicy compressor)
        offset blocks) := by
  set opts := internalTableOptions c blockSize restartInterval filterPolicy compressor
  have hsep : opts.comparator.Separates := hc.internalKeyComparator
  have hkeys := @key_lt_tableBlocks opts blocks offset hsep hsort
  refine ⟨fun b hb => ?_, fun hinternal b hb => ?_, hkeys.imp And.left, fun b hb e he => ?_,
    hkeys.imp And.right⟩
  · obtain ⟨e, he, short, hkey⟩ := exists_retag_of_mem_tableBlocks hsort.ne_nil hb
    rw [hkey]
    exact le_length_retag c short (htagged _ (entries_mem_of_mem_tableBlocks hb) e he)
  · obtain ⟨e, he, short, hkey⟩ := exists_retag_of_mem_tableBlocks hsort.ne_nil hb
    rw [hkey]
    exact (hinternal b hb e he).retag c short
  · exact rank_le_rank.mp (le_key_tableBlocks hsep hsort b hb e he)

/-! ### Tables -/

/-- A key between two internal keys, which may be the first of them. -/
structure IsSeparator (cmp : Compare) (start limit s : Bytes) : Prop where
  le : s = start ∨ cmp start s = .lt
  lt : cmp s limit = .lt
  tagged : 8 ≤ s.length
  wellFormed : IsInternalKey start → IsInternalKey s

theorem isSeparator_findShortestSeparator (hc : c.Separates) {start limit : Bytes}
    (hstart : 8 ≤ start.length) (hlt : icmp c start limit = .lt) :
    IsSeparator (icmp c) start limit
      ((internalKeyComparator c).findShortestSeparator start limit) where
  le := eq_or_lt_retag c start _
  lt := (hc.internalKeyComparator.separator hlt).2
  tagged := le_length_retag c _ hstart
  wellFormed h := h.retag c _

/-- **The keys of an index separate the blocks.** A separator of two internal keys is between them,
and a successor is not before its key; so the index of a table of sorted entries has its keys in
order, each behind its block and before the next ones, and neither builder fails. -/
theorem index_keys_separate (blockSize restartInterval : ℕ) (filterPolicy : Option FilterPolicy)
    (compressor : Option Compressor) :
    (∀ start limit : Bytes, 8 ≤ start.length → 8 ≤ limit.length →
      icmp bytewiseComparator start limit = .lt →
      IsSeparator (icmp bytewiseComparator) start limit
        ((internalKeyComparator bytewiseComparator).findShortestSeparator start limit)) ∧
    (∀ key : Bytes, 8 ≤ key.length →
      (icmp bytewiseComparator key
        ((internalKeyComparator bytewiseComparator).findShortSuccessor key)).isLE ∧
      (IsInternalKey key →
        IsInternalKey ((internalKeyComparator bytewiseComparator).findShortSuccessor key))) ∧
    (∀ entries : List Pair, 1 ≤ restartInterval → (∀ e ∈ entries, 8 ≤ e.1.length) →
      Increasing (icmp bytewiseComparator) entries →
      let opts := internalTableOptions bytewiseComparator blockSize restartInterval filterPolicy
        compressor
      let blocks := cutBlocks opts entries
      blocks.flatten = entries ∧
        IndexKeys (icmp bytewiseComparator) (tableBlocks opts 0 blocks) ∧
        buildTable opts entries = some (tableFile opts blocks) ∧
        (TableBuilder.addAll (internalKeyComparator bytewiseComparator) blockSize restartInterval
          entries >>= TableBuilder.finish).isSome) := by
  have hc := separates_bytewiseComparator
  refine ⟨fun start limit hstart _ hlt => isSeparator_findShortestSeparator hc hstart hlt,
    fun key _ => ⟨hc.internalKeyComparator.successor key, fun hkey => hkey.retag _ _⟩,
    fun entries hint htagged hsort => ?_⟩
  intro opts blocks
  have hflat : blocks.flatten = entries := flatten_cutBlocks opts entries
  have hblks : SortedBlocks opts.comparator blocks := sortedBlocks_cutBlocks hsort
  refine ⟨hflat, indexKeys_tableBlocks hc hblks ?_ 0,
    buildTable_eq hint hc.internalKeyComparator hsort,
    TableBuilder.isSome_build hint hc.internalKeyComparator hsort⟩
  intro block hblk e he
  exact htagged e (hflat ▸ List.mem_flatten.mpr ⟨block, hblk, he⟩)

/-- Blocks of one entry each, with a separator that is shorter than the keys around it. -/
theorem index_keys_separate_twoBlocks :
    IsSeparator (icmp bytewiseComparator) (internalKey [1, 1] 5 .value)
        (internalKey [3, 1] 4 .value) (internalKey [2] maxSequenceNumber .value) ∧
      (icmp bytewiseComparator (internalKey [1, 1] 5 .value)
        (internalKey [2] maxSequenceNumber .value)).isLE ∧
      (buildTable (internalTableOptions bytewiseComparator 1 1 none none)
        [(internalKey [1, 1] 5 .value, [7]), (internalKey [3, 1] 4 .value, [])]).isSome := by
  obtain ⟨hsepr, hsucc, htab⟩ := index_keys_separate 1 1 none none
  refine ⟨hsepr _ _ (by decide) (by decide) (by decide), (hsucc _ (by decide)).1, ?_⟩
  obtain ⟨-, -, hbuild, -⟩ := htab
    [(internalKey [1, 1] 5 .value, [7]), (internalKey [3, 1] 4 .value, [])] le_rfl (by decide)
    (by decide)
  rw [hbuild]
  rfl

end PulsearcDb
