import PulsearcDb.Block.BlockSearch
import PulsearcDb.Table.RoundTrip

/-!
# Errors in the blocks of a table

An iterator over a block that meets bytes that are no entry is invalid from then on and has an error
as its status. `Table::internal_get_full` only asks whether its iterators are valid, so that it
answers `NotFound` where it should return the error. `Table.ReportsCorruption` says what should hold
of a lookup; it holds exactly if no such bytes are on the way of the search, in the index block or
in the data block that the index has for the target (`Table.Decodes`).
-/

namespace PulsearcDb

/-- The bytes of the value of an entry. -/
def Block.valueOf (block : Block) (e : DecodedEntry) : Bytes :=
  (block.bytes.drop e.valueOffset).take e.valueLen

namespace Table

variable {c : Comparator}

/-- **An error of an iterator is the error of the lookup.** -/
structure ReportsCorruption (t : Table c) (target : Bytes) (verify : Bool) : Prop where
  index : ∀ it, ({ block := t.indexBlock } : BlockIter c.compare).seek target = some it →
    it.status ≠ .ok () → ∃ e, t.internalGetFull target verify = throw e
  data : ∀ {indexIter handleValue handle rest block it},
    ({ block := t.indexBlock } : BlockIter c.compare).seek target = some indexIter →
    indexIter.valid = true → indexIter.value = some handleValue →
    BlockHandle.decodeFrom handleValue = .ok (handle, rest) →
    t.readBlock handle verify = .ok block →
    ({ block } : BlockIter c.compare).seek target = some it → it.status ≠ .ok () →
    ∃ e, t.internalGetFull target verify = throw e

/-- **The bytes on the way of a search are entries.** -/
structure Decodes (t : Table c) (target : Bytes) (verify : Bool) : Prop where
  index : ∀ msg, t.indexBlock.seek c.compare target ≠ some (.undecodable msg)
  data : ∀ {offset e handle rest block},
    t.indexBlock.seek c.compare target = some (.found offset e) →
    BlockHandle.decodeFrom (t.indexBlock.valueOf e) = .ok (handle, rest) →
    t.readBlock handle verify = .ok block →
    ∀ msg, block.seek c.compare target ≠ some (.undecodable msg)

end Table

section Search

variable {cmp : Compare} {block : Block} {it : BlockIter cmp} {target : Bytes}

/-- Where a new iterator is after a search. -/
theorem exists_endsAt_of_seek (hacc : block.Accepted)
    (hseek : ({ block } : BlockIter cmp).seek target = some it) :
    ∃ r, block.seek cmp target = some r ∧ BlockIter.EndsAt block (.ok ()) it r := by
  have hspec := @BlockIter.seek_endsAt cmp { block } hacc (fun _ => ⟨rfl, rfl⟩) target
  rcases hr : block.seek cmp target with _ | r
  · rw [hr] at hspec
    cases hspec.symm.trans hseek
  · rw [hr] at hspec
    obtain ⟨it', hseek', hends, -⟩ := hspec
    obtain rfl := Option.some.inj (hseek.symm.trans hseek')
    exact ⟨r, rfl, hends⟩

theorem exists_seek_of_eq_some (hacc : block.Accepted) {r : ScanEnd}
    (hr : block.seek cmp target = some r) :
    ∃ it, ({ block } : BlockIter cmp).seek target = some it ∧
      BlockIter.EndsAt block (.ok ()) it r := by
  have hspec := @BlockIter.seek_endsAt cmp { block } hacc (fun _ => ⟨rfl, rfl⟩) target
  rw [hr] at hspec
  obtain ⟨it, hseek, hends, -⟩ := hspec
  exact ⟨it, hseek, hends⟩

/-- The status of an iterator is an error exactly where the search ended at bytes that are no
entry. -/
theorem BlockIter.EndsAt.status_ne_iff {r : ScanEnd} (h : EndsAt block (.ok ()) it r) :
    it.status ≠ .ok () ↔ ∃ msg, r = .undecodable msg := by
  cases r with
  | found offset e => simp [(h.found rfl).2.1]
  | atEnd => simp [h.atEnd rfl]
  | undecodable msg => simp [h.undecodable rfl]

theorem BlockIter.EndsAt.valid_iff {status : Result Unit} {r : ScanEnd}
    (h : EndsAt block status it r) : it.valid = true ↔ ∃ offset e, r = .found offset e := by
  cases r with
  | found offset e => simp [(h.found rfl).1]
  | atEnd => simp [(h.left fun offset e heq => by cases heq).1]
  | undecodable msg => simp [(h.left fun offset e heq => by cases heq).1]

/-- The value of an entry that was found. -/
theorem BlockIter.EndsAt.value_eq {status : Result Unit} {offset : ℕ} {e : DecodedEntry}
    (h : EndsAt block status it (.found offset e))
    (hr : block.seek cmp target = some (.found offset e)) : it.value = some (block.valueOf e) := by
  obtain ⟨key, hdec⟩ := Block.decodeEntry_of_seek hr
  obtain ⟨-, hnext, -, hlength⟩ := Block.bounds_of_decodeEntry hdec
  obtain ⟨-, -, -, -, -, hoff, hlen⟩ := h.found rfl
  rw [BlockIter.value, hoff, hlen, h.block_eq, guard, if_pos (hnext ▸ hlength)]
  rfl

end Search

namespace Table

variable {c : Comparator} {t : Table c} {target : Bytes} {verify : Bool}

/-- What `open_random` has read. -/
theorem of_openRandom {file : Bytes} {fileSize : ℕ} (h : openRandom c file fileSize = pure t) :
    t.filter = none ∧ t.indexBlock.Accepted := by
  rw [openRandom, openRandomWithOptions] at h
  split_ifs at h
  · cases h
  obtain ⟨footerBytes, -, h⟩ := exists_of_ok_bind h
  obtain ⟨⟨footer, rest⟩, -, h⟩ := exists_of_ok_bind h
  obtain ⟨indexBytes, -, h⟩ := exists_of_ok_bind h
  obtain ⟨indexBlock, hnew, h⟩ := exists_of_ok_bind h
  obtain ⟨filter, hfilt, h⟩ := exists_of_some_bind h
  obtain rfl : none = filter := Option.some.inj hfilt
  cases h
  exact ⟨rfl, Block.accepted_of_new hnew⟩

theorem accepted_of_readBlock {handle : BlockHandle} {block : Block}
    (h : t.readBlock handle verify = .ok block) : block.Accepted := by
  rw [readBlock] at h
  rcases hread : readBlockFromFile t.file handle verify t.compressor with e | bytes
  · rw [hread] at h
    cases h
  · rw [hread] at h
    exact Block.accepted_of_new h

/-- Nothing is found when the search in the index is over. -/
theorem internalGetFull_ne_throw {found : Option (BlockIter c.compare)}
    (h : t.seekEntry target target verify = pure found) (hnone : found = none) (e : Status) :
    t.internalGetFull target verify ≠ throw e := by
  subst hnone
  rw [internalGetFull]
  split_ifs
  · exact fun heq => by cases heq
  · rw [h]
    exact fun heq => by cases heq

/-- **When a lookup reports corruption.** -/
theorem reportsCorruption_iff {file : Bytes} {fileSize : ℕ}
    (hopen : openRandom c file fileSize = pure t) (target : Bytes) (verify : Bool) :
    t.ReportsCorruption target verify ↔ t.Decodes target verify := by
  obtain ⟨hfilt, hacc⟩ := of_openRandom hopen
  constructor
  · intro h
    refine ⟨fun msg hr => ?_, fun {offset e handle rest block} hr hdec hread msg hdata => ?_⟩
    · obtain ⟨it, hseek, hends⟩ := exists_seek_of_eq_some hacc hr
      have hinvalid := (hends.left fun offset e heq => by cases heq).1
      obtain ⟨e, herr⟩ := h.index it hseek (hends.status_ne_iff.mpr ⟨msg, rfl⟩)
      refine internalGetFull_ne_throw ?_ rfl e herr
      simp only [seekEntry, hseek, liftM_some_bind, hinvalid]
      rfl
    · obtain ⟨indexIter, hidx, hends⟩ := exists_seek_of_eq_some hacc hr
      obtain ⟨it, hseek, hends'⟩ := exists_seek_of_eq_some (accepted_of_readBlock hread) hdata
      have hv := (hends.found rfl).1
      have hval := hends.value_eq hr
      have hinvalid := (hends'.left fun offset e heq => by cases heq).1
      obtain ⟨e, herr⟩ := h.data hidx hv hval hdec hread hseek (hends'.status_ne_iff.mpr ⟨msg, rfl⟩)
      refine internalGetFull_ne_throw ?_ rfl e herr
      simp only [seekEntry, hidx, liftM_some_bind, hv, if_true, hval, hdec,
        liftM_ok_bind,
        hfilt, Option.all_none, hread, hseek, hinvalid]
      rfl
  · intro h
    refine ⟨fun it hseek hstat => ?_,
      fun {indexIter handleValue handle rest block it} hidx hv
      hval hdec hread hseek hstat => ?_⟩
    · obtain ⟨r, hr, hends⟩ := exists_endsAt_of_seek hacc hseek
      obtain ⟨msg, rfl⟩ := hends.status_ne_iff.mp hstat
      exact absurd hr (h.index msg)
    · obtain ⟨r, hr, hends⟩ := exists_endsAt_of_seek hacc hidx
      obtain ⟨offset, e, rfl⟩ := hends.valid_iff.mp hv
      obtain rfl := Option.some.inj (hval.symm.trans (hends.value_eq hr))
      obtain ⟨r', hr', hends'⟩ := exists_endsAt_of_seek (accepted_of_readBlock hread) hseek
      obtain ⟨msg, rfl⟩ := hends'.status_ne_iff.mp hstat
      exact absurd hr' (h.data hr hdec hread msg)

/-- A table of one entry whose first byte, the length of a shared prefix, was overwritten. -/
def corruptedFile : Bytes :=
  ((buildTable (internalTableOptions bytewiseComparator 4096 16 none none)
    [(internalKey [97] 1 .value, [1])]).getD []).set 0 5

/-- The calls of a lookup in the overwritten table. -/
theorem lookup_corruptedFile : (do
    let t ← openRandom (internalKeyComparator bytewiseComparator) corruptedFile corruptedFile.length
    let indexIter ← ({ block := t.indexBlock } :
      BlockIter (internalKeyComparator bytewiseComparator).compare).seek (internalKey [97] 1 .value)
    let handleValue ← indexIter.value
    let handle ← BlockHandle.decodeFrom handleValue
    let block ← t.readBlock handle.1 false
    let it ← ({ block } : BlockIter (internalKeyComparator bytewiseComparator).compare).seek
      (internalKey [97] 1 .value)
    let found ← t.internalGetFull (internalKey [97] 1 .value) false
    return (indexIter.valid, it.status, found) : ExceptT Status Option
      (Bool × Result Unit × LookupResult)) =
    pure (true, .error (.corruption "Block: shared > prev key len"), .notFound) := by
  change ExceptT.run _ = some (Except.ok _)
  decide +kernel

/-- **An entry that cannot be decoded is reported as an absent key.** -/
theorem not_reportsCorruption : ∃ t, openRandom (internalKeyComparator bytewiseComparator)
      corruptedFile corruptedFile.length = pure t ∧
    t.internalGetFull (internalKey [97] 1 .value) false = pure .notFound ∧
    ¬ t.ReportsCorruption (internalKey [97] 1 .value) false := by
  obtain ⟨t, hopen, h⟩ := exists_of_bind lookup_corruptedFile
  obtain ⟨indexIter, hidx, h⟩ := exists_of_some_bind h
  obtain ⟨handleValue, hval, h⟩ := exists_of_some_bind h
  obtain ⟨⟨handle, rest⟩, hdec, h⟩ := exists_of_ok_bind h
  obtain ⟨block, hread, h⟩ := exists_of_ok_bind h
  obtain ⟨it, hseek, h⟩ := exists_of_some_bind h
  obtain ⟨found, hfound, h⟩ := exists_of_bind h
  obtain ⟨hv, hrest⟩ := Prod.mk.inj (Except.ok.inj (Option.some.inj h))
  obtain ⟨hstat, rfl⟩ := Prod.mk.inj hrest
  refine ⟨t, hopen, hfound, fun hreports => ?_⟩
  obtain ⟨e, herr⟩ := hreports.data hidx hv hval hdec hread hseek
    (by rw [hstat]; exact fun heq => by cases heq)
  cases hfound.symm.trans herr

/-- The overwritten table is one that is opened. -/
theorem reportsCorruption_iff_corrupted : ∃ t, openRandom (internalKeyComparator bytewiseComparator)
      corruptedFile corruptedFile.length = pure t ∧
    (t.ReportsCorruption (internalKey [97] 1 .value) false ↔
      t.Decodes (internalKey [97] 1 .value) false) := by
  obtain ⟨t, hopen, -⟩ := exists_of_bind lookup_corruptedFile
  exact ⟨t, hopen, reportsCorruption_iff hopen _ _⟩

end Table

end PulsearcDb
