import PulsearcDb.Table.Table

/-!
# Tables are read back

A table of sorted entries serves exactly these entries (`Table.Serves`): its iterator is a cursor
over them, and a lookup finds the first entry that is not before the target, if it has the user key
of the target.

A table with compressed blocks has to be opened with its compressor, which `open_random` does not
have. In a block lengths are written as `u32`, so the blocks of a table have to be smaller than 4
GiB: a longer value is never read back.
-/

namespace PulsearcDb

open IndexedBlock List

/-- **A table serves the entries of a list**: scans in both directions, a collection of all entries,
and lookups of internal keys. -/
structure Table.Serves {c : Comparator} (t : Table c) (entries : List Pair) : Prop where
  forward : ∀ rounds, entries.length < rounds →
    ∃ it, DbIterator.scanForward rounds t.newIterator = some (entries, it) ∧
      DbIterator.status it = .ok ()
  backward : ∀ rounds, entries.length < rounds →
    ∃ it, DbIterator.scanBackward rounds t.newIterator = some (entries.reverse, it) ∧
      DbIterator.status it = .ok ()
  collect : t.collectEntries = pure entries
  lookup : ∀ target : Bytes, 8 ≤ target.length →
    t.internalGet target = pure (.ofAnswer
      (((entries.find? fun e => (c.compare target e.1).isLE).filter fun e =>
        userKey e.1 = userKey target).map fun e => ⟨e.1, e.2⟩))

/-- The options of a table of internal keys. -/
def internalTableOptions (c : Comparator) (blockSize restartInterval : ℕ)
    (filterPolicy : Option FilterPolicy) (compressor : Option Compressor) : TableOptions :=
  { comparator := internalKeyComparator c, blockSize, restartInterval, filterPolicy, compressor }

namespace Table.Reads

variable {c : Comparator} {opts : TableOptions} {blocks : List (List Pair)}

/-- A table without a filter looks into every block. -/
theorem filteredLookup_eq {t : Table c} (h : t.filter = none) (bs : List IndexedBlock)
    (target filterKey : Bytes) :
    t.filteredLookup bs target filterKey = blockLookup c.compare bs target := by
  have hmay : ∀ b, t.mayHold b filterKey = true := fun b => by
    rw [mayHold, h]
    split <;> rfl
  simp [filteredLookup, blockLookup, hmay]

variable {blockSize restartInterval : ℕ} {filterPolicy : Option FilterPolicy}
  {compressor : Option Compressor} {t : Table (internalKeyComparator c)}

/-- The lookup of an internal key among all entries. -/
theorem filter_blockLookup_userKey (hc : c.Separates)
    (hsort : SortedBlocks (internalKeyComparator c) blocks) (target : Bytes) :
    (blockLookup (icmp c) (tableBlocks
        (internalTableOptions c blockSize restartInterval filterPolicy compressor) 0 blocks)
        target).filter (fun e => userKey e.1 = userKey target) =
      (blocks.flatten.find? fun e => (icmp c target e.1).isLE).filter
        fun e => userKey e.1 = userKey target := by
  refine @filter_blockLookup
    (internalTableOptions c blockSize restartInterval filterPolicy compressor) _ _
    hc.internalKeyComparator hsort _ (fun hlt hlast htgt hfst => ?_) 0
  exact decide_eq_false (userKey_ne_of_le_separator hc hlt hlast htgt hfst)

/-- **A lookup of an internal key**, when the filter does not hide the user key. -/
theorem internalGet_eq (hc : c.Separates)
    (h : t.Reads (internalTableOptions c blockSize restartInterval filterPolicy compressor) blocks)
    (hsort : SortedBlocks (internalKeyComparator c) blocks)
    (hkeys : ∀ e ∈ blocks.flatten, IsInternalKey e.1) {target : Bytes} (htgt : 8 ≤ target.length)
    (hfilt : ((t.filteredLookup (tableBlocks
        (internalTableOptions c blockSize restartInterval filterPolicy compressor) 0 blocks)
          target target).filter fun e => userKey e.1 = userKey target) =
      ((blockLookup (icmp c) (tableBlocks
        (internalTableOptions c blockSize restartInterval filterPolicy compressor) 0 blocks)
          target).filter fun e => userKey e.1 = userKey target)) :
    t.internalGet target = pure (.ofAnswer
      (((blocks.flatten.find? fun e => (icmp c target e.1).isLE).filter fun e =>
        userKey e.1 = userKey target).map fun e => ⟨e.1, e.2⟩)) := by
  have hlook := h.internalGetFull_eq (fun entries hents e he =>
    hkeys e (mem_flatten.mpr ⟨entries, hents, he⟩)) htgt true
  exact hlook.trans (congrArg (fun found : Option Pair =>
    (pure (.ofAnswer (found.map fun e => ⟨e.1, e.2⟩)) : ExceptT Status Option LookupResult))
    (hfilt.trans (filter_blockLookup_userKey hc hsort target)))

/-- A table without a filter serves the entries of its blocks. -/
theorem serves (hc : c.Separates)
    (h : t.Reads (internalTableOptions c blockSize restartInterval none compressor) blocks)
    (hsep : Separated (icmp c)
      (tableBlocks (internalTableOptions c blockSize restartInterval none compressor) 0 blocks))
    (hsort : SortedBlocks (internalKeyComparator c) blocks)
    (hkeys : ∀ e ∈ blocks.flatten, IsInternalKey e.1) : t.Serves blocks.flatten where
  forward _ hrounds := (h.sound_newIteratorVerify hsep true).scanForward_eq hrounds
  backward _ hrounds := (h.sound_newIteratorVerify hsep true).scanBackward_eq hrounds
  collect := h.collectEntriesVerify_eq true
  lookup _ htgt :=
    h.internalGet_eq hc hsort hkeys htgt
      (congrArg (Option.filter _) (filteredLookup_eq h.filter_eq _ _ _))

end Table.Reads

/-- A compressor that stores a block as it is. -/
def identityCompressor : Compressor where
  kind := 1
  compress := some
  decompress := .ok

theorem lawful_identityCompressor : identityCompressor.Lawful where
  kind_ne := by decide
  decompress_eq h := congrArg Except.ok (Option.some.inj h).symm

/-- **Round trip of tables.** -/
theorem table_roundTrip {c : Comparator} (hc : c.Separates) {blockSize restartInterval : ℕ}
    (hint : 1 ≤ restartInterval) {compressor : Option Compressor}
    (hcomp : ∀ k ∈ compressor, k.Lawful) {entries : List Pair}
    (hkeys : ∀ e ∈ entries, IsInternalKey e.1)
    (hsort : Increasing (icmp c) entries)
    (hfits : TableFits (internalTableOptions c blockSize restartInterval none compressor)
      (cutBlocks (internalTableOptions c blockSize restartInterval none compressor) entries)) :
    ∃ file t,
      buildTable (internalTableOptions c blockSize restartInterval none compressor) entries =
        some file ∧
      Table.openRandomWithOptions (internalKeyComparator c) file file.length none compressor =
        pure t ∧
      t.Serves entries := by
  have hblks := @sortedBlocks_cutBlocks
    (internalTableOptions c blockSize restartInterval none compressor) entries hsort
  have hdata : 0 + (dataArea (internalTableOptions c blockSize restartInterval none compressor)
      (cutBlocks (internalTableOptions c blockSize restartInterval none compressor)
        entries)).length <
        2 ^ 64 := by
    have hsize := hfits.file
    rw [tableFile, bodyArea, length_append, length_append] at hsize
    omega
  obtain ⟨file, t, hbuild, hopen, hreads⟩ := Table.exists_open_buildTable hint
    hc.internalKeyComparator hcomp hsort hfits
  refine ⟨file, t, hbuild, hopen, ?_⟩
  have hserves := hreads.serves hc (separated_tableBlocks hc.internalKeyComparator hblks hdata)
    hblks
  rw [flatten_cutBlocks] at hserves
  exact hserves hkeys

/-- Two blocks, stored as compressed ones: a value and a deletion. -/
theorem table_roundTrip_two : ∃ file t,
    buildTable (internalTableOptions bytewiseComparator 1 1 none (some identityCompressor))
        [(internalKey [97] 2 .value, [1]), (internalKey [98] 1 .deletion, [])] = some file ∧
      Table.openRandomWithOptions (internalKeyComparator bytewiseComparator) file file.length none
        (some identityCompressor) = pure t ∧
      t.Serves [(internalKey [97] 2 .value, [1]), (internalKey [98] 1 .deletion, [])] := by
  refine table_roundTrip separates_bytewiseComparator le_rfl ?_ ?_ (by decide +kernel) ?_
  · rintro k ⟨⟩
    exact lawful_identityCompressor
  · intro e he
    rcases mem_cons.mp he with rfl | he
    · exact ⟨[97], 2, .value, by decide, rfl⟩
    · rw [mem_singleton.mp he]
      exact ⟨[98], 1, .deletion, by decide, rfl⟩
  · decide +kernel

/-! ### Tables that are not read back -/

/-- Opening a table without a compressor. -/
def RoundTrips (c : Comparator) (blockSize restartInterval : ℕ) (compressor : Option Compressor)
    (entries : List Pair) : Prop :=
  ∃ file t, buildTable (internalTableOptions c blockSize restartInterval none compressor) entries =
      some file ∧
    Table.openRandom (internalKeyComparator c) file file.length = pure t ∧ t.Serves entries

section LongValue

variable {cmp : Compare} {interval : ℕ} {target : Bytes}

theorem blockBytes_singleton (hint : 1 ≤ interval) (e : Pair) :
    blockBytes interval [e] = BlockEntry.encode 0 e ++ (putFixed32 0 ++ putFixed32 1) := by
  have hlt : 0 < interval := hint
  simp [blockBytes, BlockBuilder.ofEntries, BlockBuilder.push, BlockBuilder.finish,
    BlockBuilder.shared, diffIndex, hlt]

theorem length_blockBytes_singleton (hint : 1 ≤ interval) (e : Pair) :
    (blockBytes interval [e]).length = (BlockEntry.encode 0 e).length + 8 := by
  rw [blockBytes_singleton hint, length_append, length_append, length_putFixed32, length_putFixed32]

namespace BlockIter

variable {it it' : BlockIter cmp}

/-- The length of a value is read as a `u32`. -/
theorem valueLen_parseNextEntry_lt {parsed : Bool}
    (hp : it.parseNextEntry = some (parsed, it')) (h : it.valueLen < 2 ^ 32) :
    it'.valueLen < 2 ^ 32 := by
  rw [parseNextEntry] at hp
  split_ifs at hp
  · cases hp
    exact h
  obtain ⟨p, -, hp⟩ := Option.bind_eq_some_iff.mp hp
  rcases hshared : getVarint32 p with ⟨_ | shared, p₁⟩ <;> simp only [hshared] at hp
  · cases hp
    exact h
  rcases hunshared : getVarint32 p₁ with ⟨_ | unshared, p₂⟩ <;> simp only [hunshared] at hp
  · cases hp
    exact h
  rcases hvalueLen : getVarint32 p₂ with ⟨_ | valueLen, p₃⟩ <;> simp only [hvalueLen] at hp
  · cases hp
    exact h
  split_ifs at hp
  · cases hp
    exact h
  · cases hp
    exact h
  · obtain ⟨-, -, hp⟩ := Option.bind_eq_some_iff.mp hp
    cases hp
    exact lt_of_getVarint32 hvalueLen

theorem valueLen_parseTo_lt {rounds : ℕ} (hp : parseTo target rounds it = some it')
    (h : it.valueLen < 2 ^ 32) : it'.valueLen < 2 ^ 32 := by
  induction rounds generalizing it with
  | zero => cases hp
  | succ rounds ih =>
    obtain ⟨⟨parsed, it₁⟩, hentry, hp⟩ := Option.bind_eq_some_iff.mp hp
    dsimp only at hp
    split_ifs at hp
    · exact ih hp (valueLen_parseNextEntry_lt hentry h)
    · cases hp
      exact valueLen_parseNextEntry_lt hentry h

theorem valueLen_bisect {rounds left right : ℕ}
    (hb : it.bisect target rounds left right = some (.error it')) :
    it'.valueLen = it.valueLen := by
  induction rounds generalizing left right with
  | zero => cases hb
  | succ rounds ih =>
    rw [bisect] at hb
    split_ifs at hb
    · obtain ⟨offset, -, hb⟩ := Option.bind_eq_some_iff.mp hb
      obtain ⟨p, -, hb⟩ := Option.bind_eq_some_iff.mp hb
      dsimp only at hb
      rcases hunshared : getVarint32 (getVarint32 p).2 with ⟨_ | unshared, p₂⟩ <;>
        simp only [hunshared] at hb
      · cases hb
        rfl
      split_ifs at hb
      · cases hb
        rfl
      · exact ih hb
      · exact ih hb
    · cases hb

/-- **A value that `seek` leads to** has fewer than `2 ^ 32` bytes. -/
theorem length_value_seek_lt {block : Block} {value : Bytes}
    (hseek : ({ block } : BlockIter cmp).seek target = some it) (hval : it.value = some value) :
    value.length < 2 ^ 32 := by
  have hlen : it.valueLen < 2 ^ 32 := by
    rw [seek] at hseek
    split_ifs at hseek
    · cases hseek
      exact Nat.two_pow_pos 32
    · obtain ⟨found, hb, hseek⟩ := Option.bind_eq_some_iff.mp hseek
      cases found with
      | error it' =>
        cases hseek
        rw [valueLen_bisect hb]
        exact Nat.two_pow_pos 32
      | ok left =>
        obtain ⟨it', hres, hseek⟩ := Option.bind_eq_some_iff.mp hseek
        obtain ⟨offset, -, hit'⟩ := Option.bind_eq_some_iff.mp hres
        cases hit'
        exact valueLen_parseTo_lt hseek (Nat.two_pow_pos 32)
  obtain ⟨-, -, hval⟩ := Option.bind_eq_some_iff.mp hval
  cases hval
  exact (length_take_le _ _).trans_lt hlen

end BlockIter

/-- **A value that is found in a table** has fewer than `2 ^ 32` bytes. -/
theorem Table.length_lt_of_internalGet {c : Comparator} {t : Table c} {value : Bytes}
    (h : t.internalGet target = pure (.found value)) : value.length < 2 ^ 32 := by
  rw [internalGet, internalGetFull] at h
  split_ifs at h
  · cases h
  obtain ⟨found, hentry, h⟩ := exists_of_bind h
  cases found with
  | none => cases h
  | some dataIter =>
    obtain ⟨block, hseek⟩ : ∃ block, ({ block } : BlockIter c.compare).seek target =
        some dataIter := by
      obtain ⟨indexIter, -, hentry⟩ := exists_of_some_bind hentry
      split_ifs at hentry
      · obtain ⟨bytes, -, hentry⟩ := exists_of_some_bind hentry
        obtain ⟨⟨handle, rest⟩, -, hentry⟩ := exists_of_ok_bind hentry
        dsimp only at hentry
        split_ifs at hentry
        · obtain ⟨block, -, hentry⟩ := exists_of_ok_bind hentry
          obtain ⟨it, hseek, hentry⟩ := exists_of_some_bind hentry
          split_ifs at hentry
          · cases hentry
            exact ⟨block, hseek⟩
          · cases hentry
        · cases hentry
      · cases hentry
    dsimp only at h
    split_ifs at h
    · cases h
    · cases h
    · rcases htype : valueTypeFromTag (keyTypeByte dataIter.key.deref) with _ | _ | _ <;>
        simp only [htype] at h
      · cases h
      · cases h
      · obtain ⟨value', hval, h⟩ := exists_of_some_bind h
        cases h
        exact BlockIter.length_value_seek_lt hseek hval

theorem cutBlocks_singleton (opts : TableOptions) (e : Pair) :
    cutBlocks opts [e] = [[e]] := by
  rw [cutBlocks, foldl_cons, foldl_nil, cutStep]
  dsimp only
  split_ifs <;> rfl

theorem length_encode_le (e : Pair) :
    (BlockEntry.encode 0 e).length ≤ 15 + e.1.length + e.2.length := by
  have hvar : ∀ n, (putVarint32 (n % 2 ^ 32)).length ≤ 5 := fun n =>
    length_varintBytes_le (by
      have := Nat.mod_lt n (by norm_num : 0 < 2 ^ 32)
      omega)
  have hshared := hvar 0
  have hunshared := hvar (e.1.length - 0)
  have hval := hvar e.2.length
  rw [BlockEntry.encode, BlockEntry.encodeStreaming]
  simp only [length_append, length_drop]
  omega

/-- The size of a table without compression. -/
theorem length_tableFile_lt {opts : TableOptions} {blocks : List (List Pair)}
    (hcomp : opts.compressor = none) (hsize : (bodyArea opts blocks).length +
      (metaindexBytes opts blocks).length + (indexBytes opts blocks).length + 58 < 2 ^ 64) :
    (tableFile opts blocks).length < 2 ^ 64 := by
  have hstored := length_encodeBlock_of_none hcomp
  have hmetaindex : (metaindexArea opts blocks).length = (metaindexBytes opts blocks).length + 5 :=
    hstored _
  have hidx : (indexArea opts blocks).length = (indexBytes opts blocks).length + 5 := hstored _
  have hfooter : (tableFooter opts blocks).encode.length = TableFooter.encodedLength := by
    refine TableFooter.length_encode (fits_handleAt ?_) (fits_handleAt ?_)
    · rw [hstored]
      omega
    · rw [hstored]
      omega
  rw [tableFile, length_append, length_append, length_append, hmetaindex, hidx,
    hfooter, TableFooter.encodedLength]
  omega

/-- A value of 4 GiB is not read back. -/
theorem not_roundTrips_longValue : ¬ RoundTrips bytewiseComparator 4096 16 none
    [(internalKey [] 1 .value, List.replicate (2 ^ 32) 0)] := by
  generalize hval : List.replicate (2 ^ 32) (0 : UInt8) = value
  have hlength : value.length = 2 ^ 32 := by rw [← hval, length_replicate]
  rintro ⟨file, t, -, -, hserves⟩
  have hlook := hserves.lookup (internalKey [] 1 .value) (by rw [length_internalKey]; omega)
  have hself : (icmp bytewiseComparator (internalKey [] 1 .value) (internalKey [] 1 .value)).isLE :=
    Std.ReflCmp.isLE_rfl
  have hfind : [(internalKey [] 1 .value, value)].find? (fun e =>
      ((internalKeyComparator bytewiseComparator).compare (internalKey [] 1 .value) e.1).isLE) =
        some (internalKey [] 1 .value, value) := find?_cons_of_pos hself
  have hvalueType : ¬ keyTypeByte (internalKey [] 1 .value) = ValueType.deletion.toByte := by
    decide +kernel
  have hlive : (⟨internalKey [] 1 .value, value⟩ : Entry).live = some value := if_neg hvalueType
  rw [hfind, Option.filter_some_pos (by simp), Option.map_some, LookupResult.ofAnswer] at hlook
  simp only [hlive] at hlook
  exact (Table.length_lt_of_internalGet hlook).ne hlength

/-- A table with compressed blocks is not opened without its compressor. -/
theorem not_roundTrips_compressed :
    ¬ RoundTrips bytewiseComparator 4096 16 (some identityCompressor) [] := by
  have hfails : ((buildTable (internalTableOptions bytewiseComparator 4096 16 none
      (some identityCompressor)) []).bind fun file =>
        Table.openRandom (internalKeyComparator bytewiseComparator) file file.length).all
          (fun result => !result.isOk) = true := by decide +kernel
  rintro ⟨file, t, hbuild, hopen, -⟩
  rw [hbuild, Option.bind_some, hopen] at hfails
  cases hfails

end LongValue

/-- **Two tables that are not read back**: one with compressed blocks that is opened by
`open_random`, and one with a value of 4 GiB. -/
theorem not_roundTrips : identityCompressor.Lawful ∧
    ¬ RoundTrips bytewiseComparator 4096 16 (some identityCompressor) [] ∧
    ¬ RoundTrips bytewiseComparator 4096 16 none
      [(internalKey [] 1 .value, List.replicate (2 ^ 32) 0)] :=
  ⟨lawful_identityCompressor, not_roundTrips_compressed, not_roundTrips_longValue⟩

end PulsearcDb
