import PulsearcDb.DbImpl.LsmLevels

/-!
# Tables on top of a version

A flush and an open give the entries of a memtable a table of their own. It may stand above any
older table, because its entries are newer than those of the tables, up to copies, and it goes below
level 0 only where nothing of its range is in the levels above (`Lsm.Tops`,
`Lsm.Tops.recencyOrder`). -/

namespace PulsearcDb

open Recency List

namespace Lsm

variable {v : Version} {edit : VersionEdit} {contents contents' : ℕ → List Entry} {out level : ℕ}
  {added : List FileMetaData} {f g : FileMetaData}

/-- New files on top of a version: their entries are newer than those of the version, up to copies,
and what is above them does not overlap them. -/
structure Tops (v : Version) (contents : ℕ → List Entry) (edit : VersionEdit) (out : ℕ)
    (added : List FileMetaData) (contents' : ℕ → List Entry) : Prop where
  puts : Puts v edit out added
  keeps : edit.deletedFiles = []
  unchanged : ∀ level < numLevels, ∀ g ∈ v.files level, contents' g.number = contents g.number
  files : ∀ f ∈ added, FileOk (contents' f.number) f
  larger : ∀ f ∈ added, ∀ level < numLevels, ∀ g ∈ v.files level, g.number < f.number
  single : ∀ f ∈ added, ∀ g ∈ added, f.number = g.number
  apart : 0 < out → added.Pairwise Apart
  newer : ∀ f ∈ added, Shadows Entry.key Entry.sequence (fileStore contents' f)
    (v.store contents \ fileStore contents' f)
  beside : 0 < out → ∀ f ∈ added, ∀ level ≤ out, ∀ g ∈ v.files level,
    g.limit < f.start ∨ f.limit < g.start

namespace Tops

section

variable (h : Tops v contents edit out added contents')
include h

theorem mem_files :
    f ∈ (v.edited bytewiseComparator edit).files level ↔
      (level < numLevels ∧ f ∈ v.files level) ∨ (level = out ∧ f ∈ added) := by
  have hdel : ¬ edit.DeletesAt level f.number := by
    rintro ⟨d, hd, -⟩
    rw [h.keeps] at hd
    cases hd
  rw [h.puts.mem_files_edited]
  simp [hdel]

/-- The entries of a level. -/
theorem mem_filesStore (hlev : level < numLevels) {e : Entry} :
    e ∈ filesStore contents' ((v.edited bytewiseComparator edit).files level) ↔
      e ∈ filesStore contents (v.files level) ∨
        (level = out ∧ ∃ f ∈ added, e ∈ fileStore contents' f) := by
  have hold : ∀ f ∈ v.files level, (e ∈ fileStore contents' f ↔ e ∈ fileStore contents f) :=
    fun f hf => by rw [fileStore, fileStore, h.unchanged level hlev f hf]
  constructor
  · rintro ⟨f, hf, he⟩
    rcases h.mem_files.mp hf with ⟨-, hf⟩ | ⟨hout, hf⟩
    · exact .inl ⟨f, hf, (hold f hf).mp he⟩
    · exact .inr ⟨hout, f, hf, he⟩
  · rintro (⟨f, hf, he⟩ | ⟨hout, f, hf, he⟩)
    · exact ⟨f, h.mem_files.mpr (.inl ⟨hlev, hf⟩), (hold f hf).mpr he⟩
    · exact ⟨f, h.mem_files.mpr (.inr ⟨hout, hf⟩), he⟩

theorem mem_store {e : Entry} :
    e ∈ (v.edited bytewiseComparator edit).store contents' ↔
      e ∈ v.store contents ∨ ∃ f ∈ added, e ∈ fileStore contents' f := by
  constructor
  · rintro ⟨level, hlev, he⟩
    rcases (h.mem_filesStore hlev).mp he with he | ⟨-, hnew⟩
    · exact .inl ⟨level, hlev, he⟩
    · exact .inr hnew
  · rintro (⟨level, hlev, he⟩ | hnew)
    · exact ⟨level, hlev, (h.mem_filesStore hlev).mpr (.inl he)⟩
    · exact ⟨out, h.puts.level_lt, (h.mem_filesStore h.puts.level_lt).mpr (.inr ⟨rfl, hnew⟩)⟩

/-- A file that is not below the new ones has no key of theirs, unless they are in level 0. -/
theorem key_ne (hpos : 0 < out) (hf : f ∈ added) (hle : level ≤ out) (hg : g ∈ v.files level)
    (hok : FileOk (contents g.number) g) {a b : Entry} (ha : a ∈ contents g.number)
    (hb : b ∈ contents' f.number) : a.key ≠ b.key := by
  have hnew := h.files f hf
  intro hkey
  rcases h.beside hpos f hf level hle g hg with hside | hside
  · have hle := (hnew.smallest_le_key hb).trans (hkey.ge.trans (hok.key_le_largest ha))
    exact absurd hle (not_le.mpr hside)
  · have hle := (hok.smallest_le_key ha).trans (hkey.le.trans (hnew.key_le_largest hb))
    exact absurd hle (not_le.mpr hside)

/-- **New files on top keep the order of the version.** -/
theorem recencyOrder (hold : RecencyOrder v contents) :
    RecencyOrder (v.edited bytewiseComparator edit) contents' where
  files level hlev f hf := by
    rcases h.mem_files.mp hf with ⟨-, hf⟩ | ⟨-, hf⟩
    · rw [h.unchanged level hlev f hf]
      exact hold.files level hlev f hf
    · exact h.files f hf
  level0 f hf g hg hlt := by
    have hzero : 0 < numLevels := by decide
    rcases h.mem_files.mp hf with ⟨-, hf⟩ | ⟨-, hf⟩ <;>
      rcases h.mem_files.mp hg with ⟨-, hg⟩ | ⟨-, hg⟩
    · rw [fileStore, fileStore, h.unchanged 0 hzero f hf, h.unchanged 0 hzero g hg]
      exact hold.level0 f hf g hg hlt
    · exact absurd (h.larger g hg 0 hzero f hf) (not_lt.mpr hlt.le)
    · refine (h.newer f hf).mono subset_rfl (Set.sdiff_subset_sdiff_left fun e he => ?_)
      rw [fileStore, h.unchanged 0 hzero g hg] at he
      exact ⟨0, hzero, g, hg, he⟩
    · exact absurd hlt (h.single g hg f hf).not_lt
  levels level hlev upper hlt := by
    rintro a ha b ⟨hb, hnot⟩ hkey
    have hu := hlt.trans hlev
    rw [h.mem_filesStore hu] at ha hnot
    rw [h.mem_filesStore hlev] at hb
    rw [not_or] at hnot
    rcases ha with ha | ⟨hout, f, hf, ha⟩ <;> rcases hb with hb | ⟨hout', g, hg, hb⟩
    · exact hold.levels level hlev upper hlt a ha b ⟨hb, hnot.1⟩ hkey
    · obtain ⟨f, hf, ha⟩ := ha
      exact absurd hkey (h.key_ne (hout' ▸ Nat.zero_lt_of_lt hlt) hg (hout' ▸ hlt.le) hf
        (hold.files upper hu f hf) ha hb)
    · have hnotf : b ∉ fileStore contents' f := fun hmem => hnot.2 ⟨hout, f, hf, hmem⟩
      exact h.newer f hf a ha b ⟨⟨level, hlev, hb⟩, hnotf⟩ hkey
    · omega
  sorted level hlev hpos := by
    refine h.puts.sorted_edited hpos hlev (hold.sorted level hlev hpos) ?_ ?_ ?_
    · refine forall_mem_append.mpr ⟨fun f hf => ?_, fun f hf => ?_⟩
      · exact (hold.files level hlev f hf).smallest_le_largest
      · exact (h.files f hf).smallest_le_largest
    · rintro rfl
      exact h.apart hpos
    · rintro rfl f hf g hg -
      rcases h.beside hpos f hf level le_rfl g hg with hside | hside
      · exact .inr (ikOrd_lt_of_userKey_lt hside)
      · exact .inl (ikOrd_lt_of_userKey_lt hside)

/-- New files without copies keep the order also when it has no copies. -/
theorem searchOrder (hold : SearchOrder v contents)
    (hcopies : ∀ f ∈ added, Disjoint (fileStore contents' f) (v.store contents)) :
    SearchOrder (v.edited bytewiseComparator edit) contents' := by
  have hnew := h.recencyOrder hold.recencyOrder
  have hzero : 0 < numLevels := by decide
  refine ⟨hnew.files, fun f hf g hg hlt => ?_, fun level hlev upper hlt => ?_, hnew.sorted⟩
  · refine (hnew.level0 f hf g hg hlt).of_disjoint (Set.disjoint_left.mpr fun e he he' => ?_)
    rcases h.mem_files.mp hf with ⟨-, hf⟩ | ⟨-, hf⟩ <;>
      rcases h.mem_files.mp hg with ⟨-, hg⟩ | ⟨-, hg⟩
    · rw [fileStore, h.unchanged 0 hzero _ ‹_›] at he he'
      exact Set.disjoint_left.mp (hold.level0 f hf g hg hlt).disjoint he he'
    · rw [fileStore, h.unchanged 0 hzero f hf] at he
      exact Set.disjoint_left.mp (hcopies g hg) he' ⟨0, hzero, f, hf, he⟩
    · rw [fileStore, h.unchanged 0 hzero g hg] at he'
      exact Set.disjoint_left.mp (hcopies f hf) he ⟨0, hzero, g, hg, he'⟩
    · exact absurd hlt (h.single g hg f hf).not_lt
  · refine (hnew.levels level hlev upper hlt).of_disjoint (Set.disjoint_left.mpr fun e he he' => ?_)
    have hu := hlt.trans hlev
    rw [h.mem_filesStore hu] at he
    rw [h.mem_filesStore hlev] at he'
    rcases he with he | ⟨hout, f, hf, he⟩ <;> rcases he' with he' | ⟨hout', g, hg, he'⟩
    · exact Set.disjoint_left.mp (hold.levels level hlev upper hlt).disjoint he he'
    · exact Set.disjoint_left.mp (hcopies g hg) he' ⟨upper, hu, he⟩
    · exact Set.disjoint_left.mp (hcopies f hf) he ⟨level, hlev, he'⟩
    · omega

end

end Tops

variable {sizing : Sizing} {t : TableOutput}

/-- **A table of new entries goes on top.** -/
theorem tops_table
    (hfiles : ∀ f ∈ v.files 0, FileOk (contents f.number) f)
    (hfresh : ∀ level < numLevels, ∀ f ∈ v.files level, f.number < t.number)
    (ht : FileOk t.entries (t.metadata sizing))
    (hnewer : Shadows Entry.key Entry.sequence (storeOf t.entries)
      (v.store contents \ storeOf t.entries))
    (hdeleted : edit.deletedFiles = [])
    (hadded : edit.newFiles = [⟨v.pickLevelForMemtableOutput bytewiseComparator
      (userKey t.smallest) (userKey t.largest), t.metadata sizing⟩]) :
    Tops v contents edit (v.pickLevelForMemtableOutput bytewiseComparator
        (userKey t.smallest) (userKey t.largest))
      [t.metadata sizing] (writeTables contents [t]) := by
  have hwrit : writeTables contents [t] (t.metadata sizing).number = t.entries :=
    Function.update_self _ _ _
  have hrange : ∀ f ∈ v.files 0, f.start ≤ f.limit := fun f hf =>
    userKey_le_of_ikOrd_le (hfiles f hf).smallest_le_largest
  refine
    { puts :=
        { level_lt := Version.pickLevelForMemtableOutput_lt _ _ _ _
          addedAt := (addedAt_map _ _ [_] hadded).1
          addedAt_of_ne := (addedAt_map _ _ [_] hadded).2
          not_deletes := ?_ }
      keeps := hdeleted
      unchanged := fun level hlev g hg =>
        Function.update_of_ne (hfresh level hlev g hg).ne _ _
      files := forall_mem_singleton.mpr ?_
      larger := forall_mem_singleton.mpr hfresh
      single := forall_mem_singleton.mpr (forall_mem_singleton.mpr rfl)
      apart := fun _ => pairwise_singleton _ _
      newer := forall_mem_singleton.mpr ?_
      beside := fun hpos => forall_mem_singleton.mpr fun level hlev g hg => ?_ }
  · rintro f - ⟨d, hd, -⟩
    rw [hdeleted] at hd
    cases hd
  · rw [hwrit]
    exact ht
  · rw [fileStore, hwrit]
    exact hnewer
  · exact Version.not_overlap_pickLevel hrange hpos hlev hg

/-- The entries of the version are then the old ones and those of the table. -/
theorem Tops.store_table
    (h : Tops v contents edit out [t.metadata sizing] (writeTables contents [t])) :
    (v.edited bytewiseComparator edit).store (writeTables contents [t]) =
      v.store contents ∪ storeOf t.entries := by
  have hwrit : writeTables contents [t] (t.metadata sizing).number = t.entries :=
    Function.update_self _ _ _
  ext e
  rw [h.mem_store]
  simp [fileStore, hwrit, storeOf]

end Lsm

end PulsearcDb
