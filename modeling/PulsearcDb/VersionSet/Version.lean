import PulsearcDb.Foundation.StableSort
import PulsearcDb.VersionSet.VersionEdit
import Mathlib.Data.Finset.Basic

/-!
# Versions

`Version` and `VersionBuilder` of `version_set/version_set.rs`. A version is the list of files of
each level, with the level that most needs a compaction. A builder collects the file changes of
edits and makes a new version out of a base version; level 0 is ordered by file number and the
deeper levels by smallest internal key. Both sorts of the source are stable.

The scores are exact rationals here, floating point numbers in the source.

`files_saveTo_apply` is why a manifest can be replayed: collecting the edits of a whole history in
one builder over the empty version gives the version that comes from applying them one by one, as
long as no edit adds a file that the history has added before.
-/

namespace PulsearcDb

open List

/-- The sum of the file sizes. -/
def totalFileSize (files : List FileMetaData) : ℕ := (files.map (·.fileSize)).sum

/-- The size of level 1. -/
def maxBytesForLevelBase : ℕ := 10485760

/-- Each level is ten times as large. -/
def maxBytesForLevelMultiplier : ℕ := 10

/-- The capacity of a level below level 0: the base, times the multiplier for each level after
level 1. -/
def maxBytesForLevel (level : ℕ) : ℚ :=
  maxBytesForLevelBase * (maxBytesForLevelMultiplier : ℚ) ^ (level - 1)

/-- An immutable snapshot of the file set. The seek allowances of the source are not kept. -/
structure Version where
  files : ℕ → List FileMetaData := fun _ => []
  compactionScore : ℚ := -1
  compactionLevel : ℤ := -1

namespace Version

/-- Files of level 0, or bytes, over the limit. -/
def score (v : Version) (level : ℕ) : ℚ :=
  if level = 0 then ((v.files 0).length : ℚ) / l0CompactionTrigger
  else (totalFileSize (v.files level) : ℚ) / maxBytesForLevel level

/-- One turn of the loop of `finalize`: a level replaces the best one with a higher score. -/
def betterLevel (v : Version) (best : ℚ × ℤ) (level : ℕ) : ℚ × ℤ :=
  if best.1 < v.score level then (v.score level, (level : ℤ)) else best

/-- The first level with the highest score, the last level excepted. -/
def bestLevel (v : Version) : ℚ × ℤ := (List.range (numLevels - 1)).foldl v.betterLevel (-1, -1)

/-- Set the score and the level to compact. -/
def finalize (v : Version) : Version :=
  { files := v.files, compactionScore := v.bestLevel.1, compactionLevel := v.bestLevel.2 }

@[simp] theorem files_finalize (v : Version) : v.finalize.files = v.files := by
  rw [finalize]

private theorem compactionLevel_foldl (v : Version) (levels : List ℕ) (best : ℚ × ℤ)
    (hbest : best.2.toNat + 1 < numLevels) (hl : ∀ level ∈ levels, level + 1 < numLevels) :
    (levels.foldl v.betterLevel best).2.toNat + 1 < numLevels := by
  induction levels generalizing best with
  | nil => exact hbest
  | cons level levels ih =>
    rw [forall_mem_cons] at hl
    refine ih _ ?_ hl.2
    rw [betterLevel]
    split_ifs
    · exact hl.1
    · exact hbest

/-- The last level is never chosen. -/
theorem compactionLevel_finalize (v : Version) :
    v.finalize.compactionLevel.toNat + 1 < numLevels := by
  refine compactionLevel_foldl _ _ _ (by decide) fun level hlev => ?_
  rw [mem_range] at hlev
  omega

private theorem bestLevel_foldl (v : Version) (levels : List ℕ) {best : ℚ × ℤ}
    (hbest : best.1 < 1 ∨ ∃ level, level + 1 < numLevels ∧ best = (v.score level, (level : ℤ)))
    (hl : ∀ level ∈ levels, level + 1 < numLevels) :
    (levels.foldl v.betterLevel best).1 < 1 ∨ ∃ level, level + 1 < numLevels ∧
      levels.foldl v.betterLevel best = (v.score level, (level : ℤ)) := by
  induction levels generalizing best with
  | nil => exact hbest
  | cons level levels ih =>
    rw [forall_mem_cons] at hl
    refine ih ?_ hl.2
    rw [betterLevel]
    split_ifs
    · exact .inr ⟨level, hl.1, rfl⟩
    · exact hbest

/-- A level without files never needs a compaction. -/
theorem score_of_files_eq_nil {v : Version} {level : ℕ} (h : v.files level = []) :
    v.score level = 0 := by
  rw [score]
  split_ifs with hlev
  · subst hlev
    simp [h]
  · simp [h, totalFileSize]

/-- **A level that needs a compaction has files**, and it is not the last one. -/
theorem bestLevel_spec (v : Version) (hscore : 1 ≤ v.bestLevel.1) :
    ∃ level, level + 1 < numLevels ∧ v.bestLevel.2 = (level : ℤ) ∧ v.files level ≠ [] := by
  have hbest := @bestLevel_foldl v (List.range (numLevels - 1)) (-1, -1)
    (.inl (by norm_num)) fun level hlev => by
      rw [mem_range] at hlev
      omega
  rcases hbest with hlt | ⟨level, hlev, heq⟩
  · exact absurd hscore (not_le.mpr hlt)
  · change v.bestLevel = _ at heq
    rw [heq] at hscore
    refine ⟨level, hlev, by rw [heq], fun hnil => ?_⟩
    rw [score_of_files_eq_nil hnil] at hscore
    exact absurd hscore (by norm_num)

end Version

/-! ### The order of a level -/

/-- The order in which `save_to` sorts the files of a level. -/
def FileOrder (c : Comparator) (level : ℕ) (a b : FileMetaData) : Prop :=
  if level = 0 then a.number ≤ b.number else (icmp c a.smallest b.smallest).isLE

instance (c : Comparator) (level : ℕ) : DecidableRel (FileOrder c level) := fun _ _ =>
  inferInstanceAs (Decidable (ite _ _ _))

instance (c : Comparator) (level : ℕ) : Std.Total (FileOrder c level) where
  total a b := by
    unfold FileOrder
    split_ifs
    · exact le_total _ _
    · rcases h : icmp c a.smallest b.smallest with _ | _ | _
      · exact .inl rfl
      · exact .inl rfl
      · have hswap : icmp c b.smallest a.smallest = (icmp c a.smallest b.smallest).swap :=
          Std.OrientedCmp.eq_swap
        right
        rw [hswap, h]
        rfl

instance (c : Comparator) (level : ℕ) : IsTrans FileMetaData (FileOrder c level) where
  trans a b d hab hbd := by
    unfold FileOrder at *
    split_ifs at * with h
    · exact le_trans hab hbd
    · exact Std.TransCmp.isLE_trans hab hbd

/-! ### Builders -/

/-- `VersionBuilder`: the changes collected on top of a base version. -/
structure VersionBuilder where
  base : Version
  deletedFiles : ℕ → Finset ℕ := fun _ => ∅
  addedFiles : ℕ → List FileMetaData := fun _ => []

namespace VersionBuilder

/-- Record a file that goes. -/
def delete (b : VersionBuilder) (d : DeletedFile) : VersionBuilder :=
  { b with deletedFiles :=
      Function.update b.deletedFiles d.level (insert d.number (b.deletedFiles d.level)) }

/-- A file that is added is not deleted any more. -/
def add (b : VersionBuilder) (nf : NewFile) : VersionBuilder :=
  { b with
    deletedFiles :=
      Function.update b.deletedFiles nf.level ((b.deletedFiles nf.level).erase nf.file.number)
    addedFiles :=
      Function.update b.addedFiles nf.level (b.addedFiles nf.level ++ [nf.file]) }

/-- Deletions first, then additions. -/
def apply (b : VersionBuilder) (edit : VersionEdit) : VersionBuilder :=
  edit.newFiles.foldl add (edit.deletedFiles.foldl delete b)

/-- The files of a level that are left, before they are sorted. -/
def kept (b : VersionBuilder) (level : ℕ) : List FileMetaData :=
  (b.base.files level).filter (fun f => f.number ∉ b.deletedFiles level) ++
    (b.addedFiles level).filter (fun f => f.number ∉ b.deletedFiles level)

/-- The new version, sorted level by level. -/
def saveTo (b : VersionBuilder) (c : Comparator) : Version :=
  Version.finalize
    { files := fun level =>
        if level < numLevels then (b.kept level).insertionSort (FileOrder c level) else [] }

/-! ### Replaying a history -/

end VersionBuilder

namespace VersionEdit

/-- The files that an edit adds to a level. -/
def addedAt (e : VersionEdit) (level : ℕ) : List FileMetaData :=
  (e.newFiles.filter (·.level = level)).map (·.file)

/-- The file numbers that an edit deletes from a level. -/
def DeletesAt (e : VersionEdit) (level number : ℕ) : Prop :=
  ∃ d ∈ e.deletedFiles, d.level = level ∧ d.number = number

end VersionEdit

namespace VersionBuilder

section

variable (b : VersionBuilder)
include b

private theorem mem_foldl_delete (ds : List DeletedFile) (level n : ℕ) :
    n ∈ (ds.foldl delete b).deletedFiles level ↔
      n ∈ b.deletedFiles level ∨ ∃ d ∈ ds, d.level = level ∧ d.number = n := by
  induction ds generalizing b with
  | nil => simp
  | cons d ds ih =>
    rw [foldl_cons, ih]
    by_cases h : d.level = level
    · subst h
      simp [delete, eq_comm, or_assoc, or_left_comm]
    · simp [delete, h, Function.update_of_ne (Ne.symm h)]

private theorem mem_foldl_add (nfs : List NewFile) (level n : ℕ) :
    n ∈ (nfs.foldl add b).deletedFiles level ↔
      n ∈ b.deletedFiles level ∧ ¬ ∃ nf ∈ nfs, nf.level = level ∧ nf.file.number = n := by
  induction nfs generalizing b with
  | nil => simp
  | cons nf nfs ih =>
    rw [foldl_cons, ih]
    by_cases h : nf.level = level
    · subst h
      simp only [add, Function.update_self, Finset.mem_erase, exists_mem_cons_iff, true_and,
        not_or, ne_comm (a := n), ne_eq]
      tauto
    · simp [add, h, Function.update_of_ne (Ne.symm h)]

@[simp] private theorem foldl_delete_rest (ds : List DeletedFile) :
    (ds.foldl delete b).base = b.base ∧ (ds.foldl delete b).addedFiles = b.addedFiles := by
  induction ds generalizing b with
  | nil => exact ⟨rfl, rfl⟩
  | cons d ds ih => exact ih (b.delete d)

private theorem foldl_add_rest (nfs : List NewFile) (level : ℕ) :
    (nfs.foldl add b).base = b.base ∧ (nfs.foldl add b).addedFiles level =
      b.addedFiles level ++ (nfs.filter (·.level = level)).map (·.file) := by
  induction nfs generalizing b with
  | nil => simp
  | cons nf nfs ih =>
    rw [foldl_cons, (ih _).1, (ih _).2]
    by_cases h : nf.level = level
    · subst h
      simp [add]
    · simp [add, h, Function.update_of_ne (Ne.symm h)]

@[simp] theorem base_apply (e : VersionEdit) : (b.apply e).base = b.base := by
  rw [apply, (foldl_add_rest _ _ 0).1, (foldl_delete_rest b _).1]

theorem addedFiles_apply (e : VersionEdit) (level : ℕ) :
    (b.apply e).addedFiles level = b.addedFiles level ++ e.addedAt level := by
  rw [apply, (foldl_add_rest _ _ level).2, (foldl_delete_rest b _).2]
  rfl

theorem mem_deletedFiles_apply (e : VersionEdit) (level n : ℕ) :
    n ∈ (b.apply e).deletedFiles level ↔
      (n ∈ b.deletedFiles level ∨ e.DeletesAt level n) ∧ ∀ f ∈ e.addedAt level, f.number ≠ n := by
  rw [apply, mem_foldl_add, mem_foldl_delete]
  refine and_congr_right fun _ => ?_
  simp only [VersionEdit.addedAt, mem_map, mem_filter, decide_eq_true_eq]
  constructor
  · rintro h f ⟨nf, ⟨hnf, hlev⟩, rfl⟩ hn
    exact h ⟨nf, hnf, hlev, hn⟩
  · rintro h ⟨nf, hnf, hlev, hn⟩
    exact h nf.file ⟨nf, ⟨hnf, hlev⟩, rfl⟩ hn

theorem files_saveTo (c : Comparator) (level : ℕ) :
    (b.saveTo c).files level =
      if level < numLevels then (b.kept level).insertionSort (FileOrder c level) else [] := by
  rw [saveTo, Version.files_finalize]

/-- An edit does not delete what it adds. -/
private theorem filter_addedAt (e : VersionEdit) (level : ℕ) :
    (e.addedAt level).filter (fun f => f.number ∉ (b.apply e).deletedFiles level) =
      e.addedAt level := by
  rw [filter_eq_self]
  intro f hf
  simp only [decide_eq_true_eq, mem_deletedFiles_apply]
  exact fun h => h.2 f hf rfl

end

/-- The version after an edit: the files it does not delete, and those it adds. -/
theorem files_edited (c : Comparator) (v : Version) (e : VersionEdit) {level : ℕ}
    (hlev : level < numLevels) :
    ((apply { base := v } e).saveTo c).files level =
      ((v.files level).filter (fun f => f.number ∉ (apply { base := v } e).deletedFiles level) ++
        e.addedAt level).insertionSort (FileOrder c level) := by
  rw [files_saveTo, if_pos hlev, kept, base_apply, addedFiles_apply, nil_append, filter_addedAt]

/-- **One edit of a replay.** A builder over the empty version that stands for `v` still does so
after an edit that adds no file it has added before. -/
theorem files_saveTo_apply {c : Comparator} {b : VersionBuilder} {v : Version} {e : VersionEdit}
    (hbase : ∀ level, b.base.files level = [])
    (hlive : ∀ level, v.files level = (b.saveTo c).files level)
    (hfresh : ∀ level, ∀ f ∈ b.addedFiles level, ∀ g ∈ e.addedAt level, f.number ≠ g.number)
    (level : ℕ) :
    ((apply { base := v } e).saveTo c).files level = ((b.apply e).saveTo c).files level := by
  rw [files_saveTo, files_saveTo]
  split_ifs with hlev
  · have hold : (b.addedFiles level).filter (fun f => f.number ∉ (b.apply e).deletedFiles level) =
        ((b.addedFiles level).filter (fun f => f.number ∉ b.deletedFiles level)).filter
          (fun f => f.number ∉ (apply { base := v } e).deletedFiles level) := by
      rw [filter_filter]
      refine filter_congr fun f hf => ?_
      have hnew : (∀ g ∈ e.addedAt level, g.number ≠ f.number) = True :=
        eq_true fun g hg => (hfresh level f hf g hg).symm
      simp only [mem_deletedFiles_apply, ← Bool.decide_and, decide_eq_decide, hnew, and_true,
        Finset.notMem_empty, false_or, not_or]
      exact and_comm
    rw [kept, kept, base_apply, base_apply, hbase, addedFiles_apply, addedFiles_apply,
      filter_append, filter_append, filter_addedAt, filter_addedAt, hold]
    simp only [hlive, files_saveTo, if_pos hlev, kept, hbase, filter_nil, nil_append]
    rw [StableSort.filter_insertionSort, StableSort.insertionSort_insertionSort_append]
  · rfl

end VersionBuilder
end PulsearcDb
