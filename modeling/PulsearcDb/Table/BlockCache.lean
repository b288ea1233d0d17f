import PulsearcDb.Foundation.ReadThrough
import PulsearcDb.Table.TableErrors

/-!
# The block cache

Tables share a cache of parsed blocks (`Table::read_block_cached_full`). The key of a block is the
id that the cache gave to the table and the offset of the block; neither the size in the handle nor
whether the checksum was verified is part of it. A read that does not verify puts a corrupt block
into the cache, and a later read that verifies gets it from there. `TableFamily.Transparent` says
that the cache is not seen, and `TableFamily.Sound` when that is so.
-/

namespace PulsearcDb

open ReadThrough (Cache)

/-- Whether the checksum behind a stored block is the one of its bytes. -/
def checksumMatches (file : Bytes) (handle : BlockHandle) : Bool :=
  match readAt file handle.offset (handle.size + blockTrailerSize) with
  | .error _ => false
  | .ok bytes =>
    match BlockTrailer.decodeFrom (bytes.drop handle.size) with
    | .error _ => false
    | .ok (trailer, _) =>
      Crc32c.extend (Crc32c.value (bytes.take handle.size)) [trailer.kind] = trailer.crc

/-- The tables that share a cache. The cache gives every table an id of its own. -/
structure TableFamily (ι : Type) (c : Comparator) where
  table : ι → Table c
  cacheId : ι → ℕ
  cacheId_injective : Function.Injective cacheId
  cacheId_lt : ∀ i, cacheId i < 2 ^ 64

/-- A call of `read_block_cached_full` on one of the tables. -/
structure BlockRead (ι : Type) where
  table : ι
  handle : BlockHandle
  verify : Bool
  fillCache : Bool
  fits : handle.Fits

namespace TableFamily

variable {ι σ : Type} {c : Comparator}

/-- The id of the table and the offset of the block. -/
def cacheKey (tables : TableFamily ι c) (i : ι) (handle : BlockHandle) : Bytes :=
  putFixed64 (tables.cacheId i) ++ putFixed64 handle.offset

/-- `Table::read_block_cached_full`. -/
def readBlockCachedFull (tables : TableFamily ι c) (blockCache : Option (Cache Bytes Block σ))
    (i : ι) (handle : BlockHandle) (verify fillCache : Bool) (s : σ) : Result Block × σ :=
  match blockCache with
  | some cache =>
    let key := tables.cacheKey i handle
    match cache.lookup s key with
    | (some block, s) => (.ok block, s)
    | (none, s) =>
      match (tables.table i).readBlock handle verify with
      | .error e => (.error e, s)
      | .ok block =>
        (.ok block, if fillCache then cache.insert s key block block.bytes.length else s)
  | none => ((tables.table i).readBlock handle verify, s)

/-- The results of a sequence of reads. -/
def readBlocks (tables : TableFamily ι c) (blockCache : Option (Cache Bytes Block σ)) :
    List (BlockRead ι) → σ → List (Result Block)
  | [], _ => []
  | r :: rest, s =>
    let (result, s) :=
      tables.readBlockCachedFull blockCache r.table r.handle r.verify r.fillCache s
    result :: tables.readBlocks blockCache rest s

/-- The read of a handle without a cache. -/
def uncached (tables : TableFamily ι c) (r : BlockRead ι) : Result Block :=
  (tables.table r.table).readBlock r.handle r.verify

/-- **The cache is not seen**: with every cache that returns only what was last inserted under a
key, every read has the result of the uncached read. -/
def Transparent (tables : TableFamily ι c) (reads : List (BlockRead ι)) : Prop :=
  ∀ (σ : Type) (cache : Cache Bytes Block σ) (Holds : σ → List (Bytes × Block) → Prop) (s : σ),
    cache.Lawful Holds → Holds s [] →
    tables.readBlocks (some cache) reads s = reads.map tables.uncached

/-- A block that `r` may leave in the cache is good enough for `r'`: of the same handle, it is
verified or has a matching checksum if `r'` verifies; of a handle with another size, it is what `r'`
would have read. -/
structure Serves (tables : TableFamily ι c) (r r' : BlockRead ι) : Prop where
  verified : r.handle.size = r'.handle.size → r'.verify = true →
    r.verify = true ∨ checksumMatches (tables.table r.table).file r.handle = true
  resized : r.handle.size ≠ r'.handle.size → tables.uncached r' = tables.uncached r

/-- **When the cache is not seen.** -/
def Sound (tables : TableFamily ι c) (reads : List (BlockRead ι)) : Prop :=
  reads.Pairwise fun r r' => r.table = r'.table → r.handle.offset = r'.handle.offset →
    r.fillCache = true → (∃ block, tables.uncached r = .ok block) → tables.Serves r r'

end TableFamily

/-! ### Verified reads -/

/-- A verified read is a read that is not verified and whose checksum matches. -/
theorem readBlockFromFile_true_iff {file bytes : Bytes} {handle : BlockHandle}
    {compressor : Option Compressor} :
    readBlockFromFile file handle true compressor = .ok bytes ↔
      readBlockFromFile file handle false compressor = .ok bytes ∧
        checksumMatches file handle = true := by
  unfold readBlockFromFile checksumMatches
  split_ifs with hsize
  · simp
  rcases readAt file handle.offset (handle.size + blockTrailerSize) with e | stored
  · simp [error_bind]
  simp only [ok_bind]
  rcases BlockTrailer.decodeFrom (stored.drop handle.size) with e | ⟨trailer, rest⟩
  · simp [error_bind]
  simp only [ok_bind]
  by_cases hcrc :
    Crc32c.extend (Crc32c.value (stored.take handle.size)) [trailer.kind] = trailer.crc
  · simp [hcrc]
  · simp [hcrc]

namespace Table

variable {c : Comparator} {t : Table c} {handle : BlockHandle} {block : Block}

theorem readBlock_eq_ok_iff {verify : Bool} : t.readBlock handle verify = .ok block ↔
    ∃ bytes, readBlockFromFile t.file handle verify t.compressor = .ok bytes ∧
      Block.new bytes = .ok block := by
  rw [readBlock]
  rcases readBlockFromFile t.file handle verify t.compressor with e | bytes
  · simp
  · simp

theorem readBlock_true_iff : t.readBlock handle true = .ok block ↔
    t.readBlock handle false = .ok block ∧ checksumMatches t.file handle = true := by
  simp only [readBlock_eq_ok_iff, readBlockFromFile_true_iff]
  constructor
  · rintro ⟨bytes, ⟨hread, hm⟩, hnew⟩
    exact ⟨⟨bytes, hread, hnew⟩, hm⟩
  · rintro ⟨⟨bytes, hread, hnew⟩, hm⟩
    exact ⟨bytes, ⟨hread, hm⟩, hnew⟩

/-- Two reads of a handle return the same block exactly if the second one does not verify what the
first one let pass. -/
theorem readBlock_iff_of_ok {verify verify' : Bool} (h : t.readBlock handle verify = .ok block) :
    t.readBlock handle verify' = .ok block ↔
      (verify' = true → verify = true ∨ checksumMatches t.file handle = true) := by
  cases verify <;> cases verify'
  · simpa using h
  · simp [readBlock_true_iff, h]
  · simpa using (readBlock_true_iff.mp h).1
  · simpa using h

end Table

/-! ### Sequences of reads -/

theorem putFixed64_inj {a b : ℕ} (ha : a < 2 ^ 64) (hb : b < 2 ^ 64)
    (heq : putFixed64 a = putFixed64 b) : a = b := by
  rw [← decodeFixed64_putFixed64 ha, heq, decodeFixed64_putFixed64 hb]

namespace TableFamily

variable {ι σ : Type} {c : Comparator} {tables : TableFamily ι c} {r r' : BlockRead ι}

/-- The reads of blocks as requests to a cache. -/
def source (tables : TableFamily ι c) : ReadThrough.Source (BlockRead ι) Bytes Block Status where
  keyOf r := tables.cacheKey r.table r.handle
  fills r := r.fillCache
  fetch := tables.uncached
  chargeOf block := block.bytes.length

/-- A cached read is a request to the cache. -/
theorem readBlockCachedFull_eq (cache : Cache Bytes Block σ) (r : BlockRead ι) (s : σ) :
    tables.readBlockCachedFull (some cache) r.table r.handle r.verify r.fillCache s =
      ReadThrough.read cache tables.source r s := by
  simp only [readBlockCachedFull, ReadThrough.read, source, uncached]
  rcases cache.lookup s (tables.cacheKey r.table r.handle) with ⟨_ | block, s'⟩
  · rcases (tables.table r.table).readBlock r.handle r.verify with e | block <;> rfl
  · rfl

theorem readBlocks_eq (cache : Cache Bytes Block σ) (reads : List (BlockRead ι)) (s : σ) :
    tables.readBlocks (some cache) reads s = ReadThrough.readAll cache tables.source reads s := by
  induction reads generalizing s with
  | nil => rfl
  | cons r rest ih =>
    rw [ReadThrough.readAll, ← ih, ← readBlockCachedFull_eq]
    rfl

/-- Two blocks have the same key exactly if they are at one offset of one table. -/
theorem cacheKey_eq_iff : tables.cacheKey r.table r.handle = tables.cacheKey r'.table r'.handle ↔
    r.table = r'.table ∧ r.handle.offset = r'.handle.offset := by
  constructor
  · intro heq
    obtain ⟨hid, hoff⟩ := List.append_inj heq (by simp)
    have hid := putFixed64_inj (tables.cacheId_lt _) (tables.cacheId_lt _) hid
    exact ⟨tables.cacheId_injective hid, putFixed64_inj r.fits.1 r'.fits.1 hoff⟩
  · rintro ⟨htab, hoff⟩
    rw [cacheKey, cacheKey, htab, hoff]

/-- A block of `r` serves `r'` exactly if it is what `r'` reads. -/
theorem serves_iff (htab : r.table = r'.table) (hoff : r.handle.offset = r'.handle.offset)
    {block : Block} (hblk : tables.uncached r = .ok block) :
    tables.Serves r r' ↔ tables.uncached r' = .ok block := by
  by_cases hsize : r.handle.size = r'.handle.size
  · have hhandle : r.handle = r'.handle := by
      rcases hr : r.handle
      rcases hr' : r'.handle
      simp_all
    have hiff := @Table.readBlock_iff_of_ok _ _ _ _ r.verify r'.verify hblk
    rw [uncached, ← htab, ← hhandle, hiff]
    exact ⟨fun h => h.verified hsize, fun h => ⟨fun _ => h, fun hne => absurd hsize hne⟩⟩
  · rw [← hblk]
    exact ⟨fun h => h.resized hsize, fun h => ⟨fun heq => absurd heq hsize, fun _ => h⟩⟩

theorem compatible_iff : ReadThrough.Compatible tables.source r r' ↔
    (r.table = r'.table → r.handle.offset = r'.handle.offset → r.fillCache = true →
      (∃ block, tables.uncached r = .ok block) → tables.Serves r r') := by
  constructor
  · rintro h htab hoff hfills ⟨block, hblk⟩
    exact (serves_iff htab hoff hblk).mpr (h (cacheKey_eq_iff.mpr ⟨htab, hoff⟩) hfills block hblk)
  · intro h hkey hfills block hblk
    obtain ⟨htab, hoff⟩ := cacheKey_eq_iff.mp hkey
    exact (serves_iff htab hoff hblk).mp (h htab hoff hfills ⟨block, hblk⟩)

/-- **When the block cache is not seen.** -/
theorem transparent_iff_sound (tables : TableFamily ι c) (reads : List (BlockRead ι)) :
    tables.Transparent reads ↔ tables.Sound reads := by
  simp only [Transparent, Sound, readBlocks_eq, ← compatible_iff]
  exact ReadThrough.transparent_iff

/-! ### A corrupt block in the cache -/

/-- A table that does not share its cache. -/
def single (t : Table c) : TableFamily Unit c where
  table _ := t
  cacheId _ := 1
  cacheId_injective := fun _ _ _ => rfl
  cacheId_lt := fun _ => by decide

/-- The handle of the block of the overwritten table. -/
def corruptedHandle : BlockHandle := { offset := 0, size := 21 }

/-- A read of the overwritten block. -/
def corruptedRead (verify : Bool) : BlockRead Unit where
  table := ()
  handle := corruptedHandle
  verify
  fillCache := true
  fits := ⟨by decide, by decide⟩

theorem readBlock_corruptedFile : (do
    let t ← Table.openRandom (internalKeyComparator bytewiseComparator) Table.corruptedFile
      Table.corruptedFile.length
    let block ← t.readBlock corruptedHandle false
    return (block.bytes.length, (t.readBlock corruptedHandle true).map Block.bytes) :
      ExceptT Status Option (ℕ × Result Bytes)) =
    pure (21, .error (.corruption "Table: block checksum mismatch")) := by
  change ExceptT.run _ = some (Except.ok _)
  decide +kernel

/-- **A corrupt block is returned by a read that verifies**, after one that does not. -/
theorem not_transparent_corruptedRead : ∃ t block,
    Table.openRandom (internalKeyComparator bytewiseComparator) Table.corruptedFile
      Table.corruptedFile.length = pure t ∧
    checksumMatches t.file corruptedHandle = false ∧
    (single t).readBlocks (some ReadThrough.unbounded)
      [corruptedRead false, corruptedRead true] [] =
      [.ok block, .ok block] ∧
    (single t).uncached (corruptedRead true) =
      .error (.corruption "Table: block checksum mismatch") ∧
    ¬ (single t).Transparent [corruptedRead false, corruptedRead true] := by
  obtain ⟨t, hopen, h⟩ := exists_of_bind readBlock_corruptedFile
  obtain ⟨block, hread, h⟩ := exists_of_ok_bind h
  obtain ⟨-, herr⟩ := Prod.mk.inj (Except.ok.inj (Option.some.inj h))
  have hchecked : t.readBlock corruptedHandle true =
      .error (.corruption "Table: block checksum mismatch") := by
    rcases hres : t.readBlock corruptedHandle true with e | block'
    · rw [hres] at herr
      exact congrArg Except.error (Except.error.inj herr)
    · rw [hres] at herr
      cases herr
  have hm : checksumMatches t.file corruptedHandle = false := by
    by_contra hne
    rw [Table.readBlock_true_iff.mpr ⟨hread, Bool.eq_true_of_not_eq_false hne⟩] at hchecked
    cases hchecked
  have hcached : (single t).readBlocks (some ReadThrough.unbounded)
      [corruptedRead false, corruptedRead true] [] = [.ok block, .ok block] := by
    simp [readBlocks, readBlockCachedFull, ReadThrough.unbounded, corruptedRead, single, cacheKey,
      hread]
  refine ⟨t, block, hopen, hm, hcached, hchecked, fun htransparent => ?_⟩
  have heq := htransparent _ ReadThrough.unbounded Eq [] ReadThrough.lawful_unbounded rfl
  rw [hcached] at heq
  have hsecond : .ok block = (single t).uncached (corruptedRead true) :=
    (List.cons.inj (List.cons.inj heq).2).1
  cases hsecond.trans hchecked

end TableFamily

end PulsearcDb
