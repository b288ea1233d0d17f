import PulsearcDb.DbImpl.Lsm

/-!
# The levels of the tree

The levels of every version that a run of the tree reaches are well formed (`Lsm.LevelsOk`): the
files of a level below level 0 lie one behind the other in the order of internal keys, although
inputs are picked by user keys and one user key may be split over two files.

A flush, a trivial move and a merge are edits that put new files into one level. `LevelsOk.of_fits`
says once what the new files have to satisfy (`Fits`), and the three operations are instances of it.
What makes a merge fit is `LevelsOk.beside`: a file of the output level that is not an input lies on
one side of all inputs.
-/

namespace PulsearcDb

open List
namespace Lsm

/-! ### Well-formed levels -/

/-- The levels of a version, over the table files and the next file number. -/
structure LevelsOk (v : Version) (contents : ℕ → List Entry) (next : ℕ) : Prop where
  files : ∀ level, ∀ f ∈ v.files level, FileOk (contents f.number) f
  fresh : ∀ level, ∀ f ∈ v.files level, f.number < next
  nodup : ∀ level, (v.files level).Nodup
  /-- A file number names one file of one level. -/
  unique : ∀ level, ∀ f ∈ v.files level, ∀ level', ∀ g ∈ v.files level',
    f.number = g.number → level = level' ∧ f = g
  /-- A key and a sequence number name one entry of one file. -/
  distinct : ∀ level, ∀ f ∈ v.files level, ∀ level', ∀ g ∈ v.files level',
    ∀ a ∈ contents f.number, ∀ b ∈ contents g.number,
      a.key = b.key → a.sequence = b.sequence → f.number = g.number ∧ a = b
  sorted : ∀ level, 0 < level →
    (v.files level).Pairwise fun f g => ikOrd f.largest < ikOrd g.smallest
  bounded : ∀ level, numLevels ≤ level → v.files level = []
  compactionLevel : v.compactionLevel.toNat + 1 < numLevels

/-- Two files, one wholly before the other in the order of internal keys. -/
abbrev Apart : FileMetaData → FileMetaData → Prop :=
  StableSort.Separated (fun f => ikOrd f.smallest) (fun f => ikOrd f.largest)

/-- An edit that puts new files into one level. -/
structure Puts (v : Version) (edit : VersionEdit) (level : ℕ) (added : List FileMetaData) :
    Prop where
  level_lt : level < numLevels
  addedAt : edit.addedAt level = added
  addedAt_of_ne : ∀ other, other ≠ level → edit.addedAt other = []
  /-- No file that is added stays where it was. -/
  not_deletes : ∀ f ∈ added, ¬ edit.DeletesAt level f.number

variable {c : Comparator} {v : Version} {edit : VersionEdit} {contents contents' : ℕ → List Entry}
  {next next' out level : ℕ} {added : List FileMetaData} {f g : FileMetaData} {x : Compaction}

/-- The files that an edit leaves in a level. -/
def remaining (v : Version) (edit : VersionEdit) (level : ℕ) : List FileMetaData :=
  (v.files level).filter fun f =>
    f.number ∉ (VersionBuilder.apply { base := v } edit).deletedFiles level

theorem Puts.mem_remaining (h : Puts v edit out added) :
    f ∈ remaining v edit level ↔ f ∈ v.files level ∧ ¬ edit.DeletesAt level f.number := by
  rw [remaining, mem_filter, decide_eq_true_iff, VersionBuilder.mem_deletedFiles_apply]
  refine and_congr_right fun _ => not_congr ?_
  simp only [Finset.notMem_empty, false_or]
  refine ⟨fun hdel => hdel.1, fun hdel => ⟨hdel, fun g hg heq => ?_⟩⟩
  by_cases hlev : level = out
  · subst hlev
    rw [h.addedAt] at hg
    exact h.not_deletes g hg (heq ▸ hdel)
  · rw [h.addedAt_of_ne level hlev] at hg
    cases hg

theorem Puts.files_edited (h : Puts v edit out added) (hlev : level < numLevels) :
    (v.edited c edit).files level =
      (remaining v edit level ++ if level = out then added else []).insertionSort
        (FileOrder c level) := by
  have hadded : edit.addedAt level = if level = out then added else [] := by
    split_ifs with heq
    · rw [heq, h.addedAt]
    · exact h.addedAt_of_ne level heq
  rw [Version.edited, VersionBuilder.files_edited _ _ _ hlev, hadded, remaining]

theorem files_edited_of_le (hlev : numLevels ≤ level) : (v.edited c edit).files level = [] := by
  rw [Version.edited, VersionBuilder.files_saveTo, if_neg (not_lt.mpr hlev)]

theorem Puts.mem_files_edited (h : Puts v edit out added) :
    f ∈ (v.edited c edit).files level ↔
      (level < numLevels ∧ f ∈ v.files level ∧ ¬ edit.DeletesAt level f.number) ∨
        (level = out ∧ f ∈ added) := by
  by_cases hlev : level < numLevels
  · rw [h.files_edited hlev, mem_insertionSort, mem_append, h.mem_remaining]
    split_ifs with heq
    · subst heq
      simp [hlev]
    · simp [hlev, heq]
  · rw [files_edited_of_le (not_lt.mp hlev)]
    have := h.level_lt
    have hne : level ≠ out := by omega
    simp [hlev, hne]

/-- A level stays in order when the new files lie apart from each other and from what remains. -/
theorem Puts.sorted_edited (h : Puts v edit out added) (hpos : 0 < level)
    (hlev : level < numLevels)
    (hsort : (v.files level).Pairwise fun f g => ikOrd f.largest < ikOrd g.smallest)
    (hr : ∀ f ∈ v.files level ++ added, ikOrd f.smallest ≤ ikOrd f.largest)
    (hadded : level = out → added.Pairwise Apart)
    (hbeside : level = out → ∀ f ∈ added, ∀ g ∈ v.files level,
      ¬ edit.DeletesAt level g.number → Apart f g) :
    ((v.edited bytewiseComparator edit).files level).Pairwise
      fun f g => ikOrd f.largest < ikOrd g.smallest := by
  have hremaining : (remaining v edit level).Pairwise Apart :=
    (hsort.filter _).imp fun hlt => .inl hlt
  have hapart : (remaining v edit level ++ if level = out then added else []).Pairwise Apart := by
    split_ifs with heq
    · refine pairwise_append.mpr ⟨hremaining, hadded heq, fun g hg f hf => ?_⟩
      rw [h.mem_remaining] at hg
      exact (hbeside heq f hf g hg.1 hg.2).symm
    · rwa [append_nil]
  rw [h.files_edited hlev]
  refine StableSort.pairwise_lt_insertionSort (fun f : FileMetaData => ikOrd f.smallest)
    (fun f => ikOrd f.largest) _ ?_ ?_ hapart
  · intro f g hle
    rw [FileOrder, if_neg hpos.ne'] at hle
    exact isLE_icmp_bytewise.mp hle
  · intro f hf
    rw [mem_append, h.mem_remaining] at hf
    rcases hf with hf | hf
    · exact hr f (mem_append_left _ hf.1)
    · split_ifs at hf
      · exact hr f (mem_append_right _ hf)
      · cases hf

/-- The new files fit into the version: they are tables with new numbers and other entries than the
remaining files, and apart from their neighbours. -/
structure Fits (v : Version) (contents : ℕ → List Entry) (edit : VersionEdit) (out : ℕ)
    (added : List FileMetaData) (contents' : ℕ → List Entry) (next' : ℕ) : Prop where
  unchanged : ∀ level, ∀ g ∈ v.files level, ¬ edit.DeletesAt level g.number →
    contents' g.number = contents g.number
  files : ∀ f ∈ added, FileOk (contents' f.number) f
  fresh : ∀ f ∈ added, f.number < next'
  numbers : (added.map (·.number)).Nodup
  new : ∀ f ∈ added, ∀ level, ∀ g ∈ v.files level, ¬ edit.DeletesAt level g.number →
    f.number ≠ g.number ∧ ∀ a ∈ contents' f.number, ∀ b ∈ contents g.number,
      a.key = b.key → a.sequence ≠ b.sequence
  distinct : ∀ f ∈ added, ∀ g ∈ added, ∀ a ∈ contents' f.number, ∀ b ∈ contents' g.number,
    a.key = b.key → a.sequence = b.sequence → f.number = g.number ∧ a = b
  apart : 0 < out → added.Pairwise Apart
  apart_remaining : 0 < out → ∀ f ∈ added, ∀ g ∈ v.files out, ¬ edit.DeletesAt out g.number →
    Apart f g

section

variable (h : LevelsOk v contents next)
include h

/-- **An edit that fits keeps the levels well formed.** -/
theorem LevelsOk.of_fits (hputs : Puts v edit out added)
    (hfits : Fits v contents edit out added contents' next') (hnext : next ≤ next') :
    LevelsOk (v.edited bytewiseComparator edit) contents' next' where
  files level f hf := by
    rcases hputs.mem_files_edited.mp hf with ⟨-, hold, hdel⟩ | ⟨-, hnew⟩
    · rw [hfits.unchanged level f hold hdel]
      exact h.files level f hold
    · exact hfits.files f hnew
  fresh level f hf := by
    rcases hputs.mem_files_edited.mp hf with ⟨-, hold, -⟩ | ⟨-, hnew⟩
    · exact (h.fresh level f hold).trans_le hnext
    · exact hfits.fresh f hnew
  nodup level := by
    by_cases hlev : level < numLevels
    · rw [hputs.files_edited hlev, (perm_insertionSort _ _).nodup_iff, nodup_append']
      refine ⟨(h.nodup level).filter _, ?_, ?_⟩
      · split_ifs
        · exact hfits.numbers.of_map _
        · exact nodup_nil
      · intro f hf hf'
        rw [hputs.mem_remaining] at hf
        split_ifs at hf'
        · exact (hfits.new f hf' level f hf.1 hf.2).1 rfl
        · cases hf'
    · rw [files_edited_of_le (not_lt.mp hlev)]
      exact nodup_nil
  unique level f hf level' g hg heq := by
    rcases hputs.mem_files_edited.mp hf with ⟨-, hold, hdel⟩ | ⟨hout, hnew⟩ <;>
      rcases hputs.mem_files_edited.mp hg with ⟨-, hold', hdel'⟩ | ⟨hout', hnew'⟩
    · exact h.unique level f hold level' g hold' heq
    · exact absurd heq.symm (hfits.new g hnew' level f hold hdel).1
    · exact absurd heq (hfits.new f hnew level' g hold' hdel').1
    · exact ⟨hout.trans hout'.symm, inj_on_of_nodup_map hfits.numbers hnew hnew' heq⟩
  distinct level f hf level' g hg a ha b hb hkey hseq := by
    rcases hputs.mem_files_edited.mp hf with ⟨-, hold, hdel⟩ | ⟨hout, hnew⟩ <;>
      rcases hputs.mem_files_edited.mp hg with ⟨-, hold', hdel'⟩ | ⟨hout', hnew'⟩
    · rw [hfits.unchanged level f hold hdel] at ha
      rw [hfits.unchanged level' g hold' hdel'] at hb
      exact h.distinct level f hold level' g hold' a ha b hb hkey hseq
    · rw [hfits.unchanged level f hold hdel] at ha
      exact absurd hseq.symm ((hfits.new g hnew' level f hold hdel).2 b hb a ha hkey.symm)
    · rw [hfits.unchanged level' g hold' hdel'] at hb
      exact absurd hseq ((hfits.new f hnew level' g hold' hdel').2 a ha b hb hkey)
    · exact hfits.distinct f hnew g hnew' a ha b hb hkey hseq
  sorted level hlev := by
    by_cases hlt : level < numLevels
    · refine hputs.sorted_edited hlev hlt (h.sorted level hlev) ?_ ?_ ?_
      · refine forall_mem_append.mpr ⟨fun f hf => ?_, fun f hf => ?_⟩
        · exact (h.files level f hf).smallest_le_largest
        · exact (hfits.files f hf).smallest_le_largest
      · rintro rfl
        exact hfits.apart hlev
      · rintro rfl
        exact hfits.apart_remaining hlev
    · rw [files_edited_of_le (not_lt.mp hlt)]
      exact List.Pairwise.nil
  bounded level hlev := files_edited_of_le hlev
  compactionLevel := Version.compactionLevel_finalize _

/-! ### The inputs of a compaction among the levels -/

theorem LevelsOk.start_le_limit (hf : f ∈ v.files level) : f.start ≤ f.limit :=
  userKey_le_of_ikOrd_le (h.files level f hf).smallest_le_largest

theorem LevelsOk.apart (hlev : 0 < level) (hf : f ∈ v.files level)
    (hg : g ∈ v.files level) (hne : f ≠ g) :
    Apart f g := by
  have hpairwise : (v.files level).Pairwise Apart := (h.sorted level hlev).imp fun hlt => .inl hlt
  exact hpairwise.forall hf hg hne

/-- **A file of the output level that is not an input lies on one side of all inputs.** The inputs
of the compaction's level lie in the range that it misses, those of the output level overlap that
range and are ordered with it. -/
theorem LevelsOk.beside (hx : x.IsPicked v)
    (hg : g ∈ v.files (x.level + 1)) (hnot : g ∉ x.inputs1) :
    (∀ f ∈ x.inputs0 ++ x.inputs1, ∀ e ∈ contents f.number, ikOrd g.largest < ikOrd e.ik) ∨
      ∀ f ∈ x.inputs0 ++ x.inputs1, ∀ e ∈ contents f.number, ikOrd e.ik < ikOrd g.smallest := by
  have hr := (getUserRange_spec hx.inputs0.ne_nil).1
  have hbetween := h.start_le_limit hg
  rcases hx.not_overlap hg hnot with hside | hside
  · refine .inl fun f hf e he => ?_
    rcases mem_append.mp hf with hf | hf
    · have hok := h.files _ f (hx.inputs0.sublist.subset hf)
      exact ikOrd_lt_of_userKey_lt ((hside.trans_le (hr f hf).1).trans_le (hok.smallest_le_key he))
    · obtain ⟨hmem, hlimit, -⟩ := hx.overlap hf
      have hne : f ≠ g := fun heq => hnot (heq ▸ hf)
      have hlt : ikOrd g.largest < ikOrd f.smallest := by
        refine (h.apart x.level.succ_pos hmem hg hne).resolve_left fun hbefore => ?_
        have hle : f.limit ≤ g.start := userKey_le_of_ikOrd_le hbefore.le
        exact absurd (hside.trans_le hlimit) (not_lt.mpr (hle.trans hbetween))
      exact hlt.trans_le ((h.files _ f hmem).smallest_le he)
  · refine .inr fun f hf e he => ?_
    rcases mem_append.mp hf with hf | hf
    · have hok := h.files _ f (hx.inputs0.sublist.subset hf)
      exact ikOrd_lt_of_userKey_lt (((hok.key_le_largest he).trans (hr f hf).2).trans_lt hside)
    · obtain ⟨hmem, -, hstart⟩ := hx.overlap hf
      have hne : f ≠ g := fun heq => hnot (heq ▸ hf)
      have hlt : ikOrd f.largest < ikOrd g.smallest := by
        refine (h.apart x.level.succ_pos hmem hg hne).resolve_right fun hbefore => ?_
        have hle : g.limit ≤ f.start := userKey_le_of_ikOrd_le hbefore.le
        exact absurd (hstart.trans_lt hside) (not_lt.mpr (hbetween.trans hle))
      exact ((h.files _ f hmem).le_largest he).trans_lt hlt

omit h in
theorem apart_of_beside {entries : List Entry} (hok : FileOk entries f)
    (h : (∀ e ∈ entries, ikOrd g.largest < ikOrd e.ik) ∨
      ∀ e ∈ entries, ikOrd e.ik < ikOrd g.smallest) : Apart f g := by
  obtain ⟨first, hfst, hsmall⟩ := hok.exists_smallest
  obtain ⟨last, hlast, hlarge⟩ := hok.exists_largest
  rcases h with hside | hside
  · have hlt := hside first hfst
    rw [hsmall] at hlt
    exact .inr hlt
  · have hlt := hside last hlast
    rw [hlarge] at hlt
    exact .inl hlt

/-! ### The merged entries -/

omit h in
theorem mem_entries {e : Entry} :
    e ∈ x.entries bytewiseComparator contents ↔
      ∃ f ∈ x.inputs0 ++ x.inputs1, e ∈ contents f.number := by
  rw [Compaction.entries, mem_insertionSort, mem_flatMap]

omit h in
theorem LevelsOk.mem_files_of_mem_inputs (hx : x.IsPicked v) (hf : f ∈ x.inputs0 ++ x.inputs1) :
    ∃ level, f ∈ v.files level := by
  rcases mem_append.mp hf with hf | hf
  · exact ⟨_, hx.inputs0.sublist.subset hf⟩
  · exact ⟨_, (hx.overlap hf).1⟩

private theorem LevelsOk.pairwise_inputs (hx : x.IsPicked v) :
    (x.inputs0 ++ x.inputs1).Pairwise fun f g => f.number ≠ g.number := by
  have hlev : ∀ {level} {l : List FileMetaData}, l.Sublist (v.files level) →
      l.Pairwise fun f g => f.number ≠ g.number := by
    intro level l hl
    refine (hl.nodup (h.nodup level)).imp_of_mem fun {f g} hf hg hne heq => ?_
    exact hne (h.unique level f (hl.subset hf) level g (hl.subset hg) heq).2
  refine pairwise_append.mpr ⟨hlev hx.inputs0.sublist, ?_, fun f hf g hg heq => ?_⟩
  · rw [hx.inputs1]
    exact hlev filter_sublist
  · have := (h.unique _ f (hx.inputs0.sublist.subset hf) _ g (hx.overlap hg).1 heq).1
    omega

/-- **The merged entries are strictly sorted.** -/
theorem LevelsOk.sorted_entries (hx : x.IsPicked v) :
    (x.entries bytewiseComparator contents).Pairwise fun a b => ikOrd a.ik < ikOrd b.ik := by
  have hdist : ((x.inputs0 ++ x.inputs1).flatMap fun f => contents f.number).Pairwise
      fun a b => ¬ (a.key = b.key ∧ a.sequence = b.sequence) := by
    rw [pairwise_flatMap]
    constructor
    · intro f hf
      obtain ⟨level, hmem⟩ := LevelsOk.mem_files_of_mem_inputs hx hf
      refine (h.files level f hmem).sorted.imp_of_mem fun {a b} ha hb hlt heq => ?_
      have := (h.distinct level f hmem level f hmem a ha b hb heq.1 heq.2).2
      exact lt_irrefl _ (this ▸ hlt)
    · refine (h.pairwise_inputs hx).imp_of_mem fun {f g} hf hg hne a ha b hb heq => ?_
      obtain ⟨level, hmem⟩ := LevelsOk.mem_files_of_mem_inputs hx hf
      obtain ⟨level', hmem'⟩ := LevelsOk.mem_files_of_mem_inputs hx hg
      exact hne (h.distinct level f hmem level' g hmem' a ha b hb heq.1 heq.2).1
  refine Entry.pairwise_lt ((pairwise_insertionSort _ _).imp fun hle =>
    isLE_icmp_bytewise.mp hle) ?_
  refine ((perm_insertionSort _ _).symm.pairwise hdist fun hne heq => ?_).imp
    fun hne hkey hseq => hne ⟨hkey, hseq⟩
  exact hne ⟨heq.1.symm, heq.2.symm⟩

end

/-! ### The files that are written -/

theorem writeTables_of_notMem {tables : List TableOutput} {n : ℕ} (h : ∀ t ∈ tables, t.number ≠ n) :
    writeTables contents tables n = contents n := by
  induction tables generalizing contents with
  | nil => rfl
  | cons t tables ih =>
    rw [forall_mem_cons] at h
    rw [writeTables, foldl_cons]
    exact (ih h.2).trans (Function.update_of_ne h.1.symm _ _)

theorem writeTables_of_mem {tables : List TableOutput} {t : TableOutput}
    (hnums : tables.Pairwise fun t u => t.number < u.number) (ht : t ∈ tables) :
    writeTables contents tables t.number = t.entries := by
  induction tables generalizing contents with
  | nil => cases ht
  | cons u tables ih =>
    obtain ⟨hu, hnums⟩ := pairwise_cons.mp hnums
    rw [writeTables, foldl_cons]
    rcases mem_cons.mp ht with rfl | ht
    · exact (writeTables_of_notMem fun t' ht' => (hu t' ht').ne').trans (Function.update_self _ _ _)
    · exact ih hnums ht

/-! ### The three edits -/

section Edits

variable {sizing : Sizing} {gaps : ℕ → ℕ} {st : Lsm bytewiseComparator} {tables : List TableOutput}

theorem deletesAt_mergeEdit {n : ℕ} :
    (mergeEdit sizing x tables).DeletesAt level n ↔
      (level = x.level ∧ ∃ f ∈ x.inputs0, f.number = n) ∨
        (level = x.level + 1 ∧ ∃ f ∈ x.inputs1, f.number = n) := by
  simp only [VersionEdit.DeletesAt, mergeEdit, mem_append, mem_map]
  constructor
  · rintro ⟨d, ⟨f, hf, rfl⟩ | ⟨f, hf, rfl⟩, hlev, hn⟩
    · exact .inl ⟨hlev.symm, f, hf, hn⟩
    · exact .inr ⟨hlev.symm, f, hf, hn⟩
  · rintro (⟨hlev, f, hf, hn⟩ | ⟨hlev, f, hf, hn⟩)
    · exact ⟨_, .inl ⟨f, hf, rfl⟩, hlev.symm, hn⟩
    · exact ⟨_, .inr ⟨f, hf, rfl⟩, hlev.symm, hn⟩

theorem deletesAt_trivialEdit {n : ℕ} :
    (trivialEdit x f).DeletesAt level n ↔ level = x.level ∧ n = f.number := by
  simp [VersionEdit.DeletesAt, trivialEdit, eq_comm]

theorem addedAt_map (edit : VersionEdit) (out : ℕ) (files : List FileMetaData)
    (h : edit.newFiles = files.map fun f => ⟨out, f⟩) :
    edit.addedAt out = files ∧ ∀ other, other ≠ out → edit.addedAt other = [] := by
  refine ⟨?_, fun other hne => ?_⟩ <;> rw [VersionEdit.addedAt, h]
  · rw [filter_eq_self.mpr (by simp), map_map]
    exact map_id _
  · rw [filter_eq_nil_iff.mpr (by simp [hne.symm]), map_nil]

theorem puts_trivialEdit (hlev : x.level + 1 < numLevels) :
    Puts v (trivialEdit x f) (x.level + 1) [f] where
  level_lt := hlev
  addedAt := (addedAt_map (trivialEdit x f) (x.level + 1) [f] rfl).1
  addedAt_of_ne := (addedAt_map (trivialEdit x f) (x.level + 1) [f] rfl).2
  not_deletes g _ hdel := by
    have := (deletesAt_trivialEdit.mp hdel).1
    omega

theorem puts_mergeEdit (hlev : x.level + 1 < numLevels)
    (hnew : ∀ t ∈ tables, ∀ g ∈ x.inputs0 ++ x.inputs1, g.number ≠ t.number) :
    Puts v (mergeEdit sizing x tables) (x.level + 1) (tables.map (·.metadata sizing)) where
  level_lt := hlev
  addedAt := (addedAt_map _ _ _ (by simp [mergeEdit])).1
  addedAt_of_ne := (addedAt_map _ _ (tables.map (·.metadata sizing)) (by simp [mergeEdit])).2
  not_deletes f hf hdel := by
    obtain ⟨t, ht, rfl⟩ := mem_map.mp hf
    rcases deletesAt_mergeEdit.mp hdel with ⟨-, g, hg, heq⟩ | ⟨-, g, hg, heq⟩
    · exact hnew t ht g (mem_append_left _ hg) heq
    · exact hnew t ht g (mem_append_right _ hg) heq

theorem LevelsOk.puts_mergeEdit (h : LevelsOk v contents next) (hx : x.IsPicked v)
    (htabs : ∀ t ∈ tables, next ≤ t.number) :
    Puts v (mergeEdit sizing x tables) (x.level + 1) (tables.map (·.metadata sizing)) := by
  refine Lsm.puts_mergeEdit hx.level_lt fun t ht g hg => ?_
  obtain ⟨level, hmem⟩ := LevelsOk.mem_files_of_mem_inputs hx hg
  exact ((h.fresh level g hmem).trans_le (htabs t ht)).ne

/-- A file that a trivial move leaves where it is has another number than the moved one. -/
private theorem LevelsOk.number_ne_of_not_deletes (h : LevelsOk v contents next)
    (hf : f ∈ v.files x.level) (hg : g ∈ v.files level)
    (hdel : ¬ (trivialEdit x f).DeletesAt level g.number) : f.number ≠ g.number := by
  intro heq
  obtain ⟨rfl, rfl⟩ := h.unique _ f hf _ g hg heq
  exact hdel (deletesAt_trivialEdit.mpr ⟨rfl, rfl⟩)

/-- **A trivial move fits.** -/
theorem LevelsOk.fits_trivialEdit (h : LevelsOk v contents next) (hx : x.IsPicked v)
    (hinputs0 : x.inputs0 = [f]) (hinputs1 : x.inputs1 = []) :
    Fits v contents (trivialEdit x f) (x.level + 1) [f] contents next := by
  have hf : f ∈ v.files x.level := hx.inputs0.sublist.subset (hinputs0 ▸ mem_cons_self)
  have hok := h.files _ f hf
  refine
    { unchanged := fun _ _ _ _ => rfl
      files := forall_mem_singleton.mpr hok
      fresh := forall_mem_singleton.mpr (h.fresh _ f hf)
      numbers := nodup_singleton _
      new := forall_mem_singleton.mpr fun level g hg hdel => ?_
      distinct := forall_mem_singleton.mpr (forall_mem_singleton.mpr (h.distinct _ f hf _ f hf))
      apart := fun _ => pairwise_singleton _ _
      apart_remaining := fun _ => forall_mem_singleton.mpr fun g hg _ => ?_ }
  · have hne := h.number_ne_of_not_deletes hf hg hdel
    exact ⟨hne, fun a ha b hb hkey hseq =>
      hne (h.distinct _ f hf level g hg a ha b hb hkey hseq).1⟩
  · have hmem : f ∈ x.inputs0 ++ x.inputs1 := by simp [hinputs0]
    exact apart_of_beside hok ((h.beside hx hg (by simp [hinputs1])).imp (fun hside => hside f hmem)
      fun hside => hside f hmem)

/-- A file that a merge leaves where it is has another number than the inputs. -/
private theorem LevelsOk.number_ne_of_mem_inputs (h : LevelsOk v contents next) (hx : x.IsPicked v)
    (hf : f ∈ x.inputs0 ++ x.inputs1) (hg : g ∈ v.files level)
    (hdel : ¬ (mergeEdit sizing x tables).DeletesAt level g.number) : f.number ≠ g.number := by
  intro heq
  refine hdel (deletesAt_mergeEdit.mpr ?_)
  rcases mem_append.mp hf with hf | hf
  · exact .inl ⟨(h.unique _ f (hx.inputs0.sublist.subset hf) _ g hg heq).1.symm, f, hf, heq⟩
  · exact .inr ⟨(h.unique _ f (hx.overlap hf).1 _ g hg heq).1.symm, f, hf, heq⟩

/-- **The tables of a merge** are well formed, hold entries of the inputs and lie one behind the
other. -/
theorem LevelsOk.tables_merge (h : LevelsOk st.version st.contents st.nextFileNumber)
    (hx : x.IsPicked st.version) (sizing : Sizing) (gaps : ℕ → ℕ) :
    (∀ t ∈ (st.merge sizing gaps x).tables, FileOk t.entries (t.metadata sizing)) ∧
      (∀ t ∈ (st.merge sizing gaps x).tables, ∀ e ∈ t.entries,
        ∃ f ∈ x.inputs0 ++ x.inputs1, e ∈ st.contents f.number) ∧
      (st.merge sizing gaps x).tables.Pairwise fun t u =>
        ∀ a ∈ t.entries, ∀ b ∈ u.entries, ikOrd a.ik < ikOrd b.ik := by
  obtain ⟨hok, hflat⟩ := tables_mergeEntries sizing gaps (x.isBaseLevelForKey bytewiseComparator)
    st.smallestSnapshotSequence st.nextFileNumber (x.entries bytewiseComparator st.contents)
  have hsub :=
    kept_sublist (x.isBaseLevelForKey bytewiseComparator) st.smallestSnapshotSequence none
    (2 ^ 64 - 1) (x.entries bytewiseComparator st.contents)
  rw [← hflat] at hsub
  obtain ⟨hsort, hbehind⟩ := pairwise_flatMap.mp ((h.sorted_entries hx).sublist hsub)
  have hs : ∀ t ∈ (st.merge sizing gaps x).tables, ∀ e ∈ t.entries,
      ∃ f ∈ x.inputs0 ++ x.inputs1, e ∈ st.contents f.number := fun t ht e he =>
    mem_entries.mp (hsub.subset (mem_flatMap.mpr ⟨t, ht, he⟩))
  refine ⟨fun t ht => ⟨hsort t ht, (hok.tables t ht).smallest, (hok.tables t ht).largest, ?_⟩,
    hs, hbehind⟩
  intro e he
  obtain ⟨f, hf, hmem⟩ := hs t ht e he
  obtain ⟨level, hlev⟩ := LevelsOk.mem_files_of_mem_inputs hx hf
  exact (h.files level f hlev).valid e hmem

/-- **A merge fits.** -/
theorem LevelsOk.fits_mergeEdit (h : LevelsOk st.version st.contents st.nextFileNumber)
    (hx : x.IsPicked st.version) :
    Fits st.version st.contents (mergeEdit sizing x (st.merge sizing gaps x).tables) (x.level + 1)
      ((st.merge sizing gaps x).tables.map (·.metadata sizing))
      (writeTables st.contents (st.merge sizing gaps x).tables)
      (st.merge sizing gaps x).nextFileNumber := by
  obtain ⟨hfiles, hs, hbehind⟩ := h.tables_merge hx sizing gaps
  have hok := (tables_mergeEntries sizing gaps (x.isBaseLevelForKey bytewiseComparator)
    st.smallestSnapshotSequence st.nextFileNumber (x.entries bytewiseComparator st.contents)).1
  have hwrit : ∀ t ∈ (st.merge sizing gaps x).tables,
      writeTables st.contents (st.merge sizing gaps x).tables t.number = t.entries :=
    fun t ht => writeTables_of_mem hok.numbers ht
  have hdisjoint : ∀ t ∈ (st.merge sizing gaps x).tables, ∀ u ∈ (st.merge sizing gaps x).tables,
      t ≠ u → ∀ a ∈ t.entries, a ∉ u.entries := by
    have hsymm : Std.Symm fun t u : TableOutput => ∀ a ∈ t.entries, a ∉ u.entries :=
      ⟨fun t u hne a ha hb => hne a hb ha⟩
    have hpairwise := hbehind.imp (S := fun t u => ∀ a ∈ t.entries, a ∉ u.entries)
      fun hlt a ha hb => lt_irrefl _ (hlt a ha a hb)
    exact fun t ht u hu => hpairwise.forall ht hu
  refine
    { unchanged := fun level g hg _ => writeTables_of_notMem fun t ht heq => ?_
      files := forall_mem_map.mpr fun t ht => ?_
      fresh := forall_mem_map.mpr fun t ht => (hok.fresh t ht).2
      numbers := ?_
      new := forall_mem_map.mpr fun t ht level g hg hdel => ⟨?_, ?_⟩
      distinct := forall_mem_map.mpr fun t ht => forall_mem_map.mpr fun u hu => ?_
      apart := fun _ => ?_
      apart_remaining := fun _ => forall_mem_map.mpr fun t ht g hg hdel => ?_ }
  · have := h.fresh level g hg
    have := (hok.fresh t ht).1
    omega
  · rw [TableOutput.metadata, hwrit t ht]
    exact hfiles t ht
  · rw [map_map]
    exact pairwise_map.mpr (hok.numbers.imp fun hlt => hlt.ne)
  · have := h.fresh level g hg
    have := (hok.fresh t ht).1
    dsimp only [TableOutput.metadata]
    omega
  · intro a ha b hb hkey hseq
    rw [TableOutput.metadata, hwrit t ht] at ha
    obtain ⟨f, hf, hmem⟩ := hs t ht a ha
    obtain ⟨level', hlev'⟩ := LevelsOk.mem_files_of_mem_inputs hx hf
    exact h.number_ne_of_mem_inputs hx hf hg hdel
      (h.distinct level' f hlev' level g hg a hmem b hb hkey hseq).1
  · intro a ha b hb hkey hseq
    rw [TableOutput.metadata, hwrit t ht] at ha
    rw [TableOutput.metadata, hwrit u hu] at hb
    obtain ⟨f, hf, hmem⟩ := hs t ht a ha
    obtain ⟨g, hg, hmem'⟩ := hs u hu b hb
    obtain ⟨level, hlev⟩ := LevelsOk.mem_files_of_mem_inputs hx hf
    obtain ⟨level', hlev'⟩ := LevelsOk.mem_files_of_mem_inputs hx hg
    obtain rfl := (h.distinct level f hlev level' g hlev' a hmem b hmem' hkey hseq).2
    refine ⟨?_, rfl⟩
    by_contra hne
    exact hdisjoint t ht u hu (fun heq => hne (congrArg TableOutput.number heq)) a ha hb
  · rw [pairwise_map]
    refine hbehind.imp_of_mem fun {t u} ht hu hlt => ?_
    obtain ⟨first, hfst, hsmall⟩ := (hfiles u hu).exists_smallest
    refine (apart_of_beside (hfiles t ht) (.inr fun e he => ?_))
    rw [← hsmall]
    exact hlt e he first hfst
  · have hnot : g ∉ x.inputs1 := fun hmem =>
      hdel (deletesAt_mergeEdit.mpr (.inr ⟨rfl, g, hmem, rfl⟩))
    refine apart_of_beside (hfiles t ht) ?_
    refine (h.beside hx hg hnot).imp (fun hside e he => ?_) fun hside e he => ?_ <;>
    · obtain ⟨f, hf, hmem⟩ := hs t ht e he
      exact hside f hf e hmem

end Edits

/-! ### Memtables -/

/-- A memtable whose entries have sequence numbers of their own, from a given range. -/
structure MemOk (m : MemTable bytewiseComparator) (after upTo : ℕ) : Prop where
  valid : ∀ e ∈ m.entries, e.Valid
  range : ∀ e ∈ m.entries, after < e.sequence ∧ e.sequence ≤ upTo
  distinct : m.entries.Pairwise fun a b => a.sequence ≠ b.sequence

theorem memOk_empty (n : ℕ) : MemOk {} n n :=
  { valid := fun _ he => absurd he not_mem_nil
    range := fun _ he => absurd he not_mem_nil
    distinct := List.Pairwise.nil }

variable {m : MemTable bytewiseComparator} {after : ℕ}

theorem MemOk.eq_of_sequence_eq {upTo : ℕ} (h : MemOk m after upTo) {a b : Entry}
    (ha : a ∈ m.entries) (hb : b ∈ m.entries) (heq : a.sequence = b.sequence) : a = b := by
  by_contra hne
  have hsymm : Std.Symm fun a b : Entry => a.sequence ≠ b.sequence := ⟨fun _ _ => Ne.symm⟩
  exact h.distinct.forall ha hb hne heq

theorem MemOk.sorted {upTo : ℕ} (h : MemOk m after upTo) :
    m.entries.Pairwise fun a b => ikOrd a.ik < ikOrd b.ik := by
  refine Entry.pairwise_lt (m.sorted.imp fun hle => isLE_icmp_bytewise.mp hle) ?_
  exact h.distinct.imp fun {a b} hne (_ : a.key = b.key) => hne

/-- A write adds an entry with the next sequence number. -/
theorem MemOk.add {upTo : ℕ} (h : MemOk m after upTo) (hafter : after ≤ upTo)
    (hmax : upTo < maxSequenceNumber) (valueType : ValueType) (key value : Bytes) :
    MemOk (m.add (upTo + 1) valueType key value).2 after (upTo + 1) := by
  have hnew : (⟨internalKey key (upTo + 1) valueType, value⟩ : Entry).sequence = upTo + 1 :=
    keySequence_internalKey hmax key valueType
  refine ⟨fun e he => ?_, fun e he => ?_, ?_⟩
  · rcases MemTable.mem_insert.mp he with rfl | he
    · exact ⟨key, upTo + 1, valueType, hmax, rfl⟩
    · exact h.valid e he
  · rcases MemTable.mem_insert.mp he with rfl | he
    · rw [hnew]
      omega
    · have := h.range e he
      omega
  · refine (perm_orderedInsert _ _ _).symm.pairwise ?_ fun hne => hne.symm
    refine pairwise_cons.mpr ⟨fun e he => ?_, h.distinct⟩
    have := (h.range e he).2
    rw [hnew]
    omega

/-! ### Every run -/

variable {sizing : Sizing} {st : Lsm bytewiseComparator} {flushed rotated : ℕ}

/-- What holds in every state of a run: the levels are well formed, and the tables, the immutable
memtable and the memtable have sequence numbers from three consecutive ranges. -/
structure Inv (st : Lsm bytewiseComparator) (flushed rotated : ℕ) : Prop where
  levels : LevelsOk st.version st.contents st.nextFileNumber
  tables : ∀ level, ∀ f ∈ st.version.files level, ∀ e ∈ st.contents f.number, e.sequence ≤ flushed
  imm : ∀ m ∈ st.imm, MemOk m flushed rotated
  mem : MemOk st.mem rotated st.lastSequence
  flushed_le : flushed ≤ rotated
  rotated_le : rotated ≤ st.lastSequence
  lastSequence_le : st.lastSequence ≤ maxSequenceNumber

theorem flush_eq (sizing : Sizing) {first last : Entry} (himm : st.imm = some m)
    (hfst : m.entries.head? = some first) (hlast : m.entries.getLast? = some last) :
    st.flush sizing =
      { st with
        version := st.version.edited bytewiseComparator (st.flushEdit sizing m first last)
        contents := writeTables st.contents [st.flushTable m first last]
        nextFileNumber := st.nextFileNumber + 1
        imm := none } := by
  simp only [flush, himm, hfst, hlast]

/-- The three outcomes of a flush. -/
theorem flush_cases (sizing : Sizing) (st : Lsm bytewiseComparator) :
    (st.imm = none ∧ st.flush sizing = st) ∨
      (∃ m, st.imm = some m ∧ m.entries = [] ∧ st.flush sizing = { st with imm := none }) ∨
      ∃ m first last, st.imm = some m ∧ m.entries.head? = some first ∧
        m.entries.getLast? = some last ∧ st.flush sizing =
          { st with
            version := st.version.edited bytewiseComparator (st.flushEdit sizing m first last)
            contents := writeTables st.contents [st.flushTable m first last]
            nextFileNumber := st.nextFileNumber + 1
            imm := none } := by
  rcases himm : st.imm with _ | m
  · exact .inl ⟨rfl, by rw [flush, himm]⟩
  · rcases hfst : m.entries.head? with _ | first
    · exact .inr (.inl ⟨m, rfl, head?_eq_none_iff.mp hfst, by
        simp only [flush, himm, hfst]⟩)
    · rcases hlast : m.entries.getLast? with _ | last
      · exact .inr (.inl ⟨m, rfl, getLast?_eq_none_iff.mp hlast, by
          simp only [flush, himm, hfst, hlast]⟩)
      · exact .inr (.inr ⟨m, first, last, rfl, hfst, hlast, flush_eq sizing himm hfst hlast⟩)

theorem puts_flushEdit (st : Lsm bytewiseComparator) (m : MemTable bytewiseComparator)
    (first last : Entry) :
    Puts st.version (st.flushEdit sizing m first last) (st.flushLevel first last)
      [(st.flushTable m first last).metadata sizing] where
  level_lt := Version.pickLevelForMemtableOutput_lt _ _ _ _
  addedAt := (addedAt_map _ _ [_] rfl).1
  addedAt_of_ne := (addedAt_map _ _ [_] rfl).2
  not_deletes f _ hdel := by
    obtain ⟨d, hd, -⟩ := hdel
    cases hd

/-- **The table of a flush fits.** -/
theorem Inv.fits_flushEdit (h : Inv st flushed rotated) {m : MemTable bytewiseComparator}
    {first last : Entry} (himm : st.imm = some m) (hfst : m.entries.head? = some first)
    (hlast : m.entries.getLast? = some last) :
    Fits st.version st.contents (st.flushEdit sizing m first last) (st.flushLevel first last)
      [(st.flushTable m first last).metadata sizing]
      (writeTables st.contents [st.flushTable m first last]) (st.nextFileNumber + 1) := by
  have hmem : MemOk m flushed rotated := h.imm m himm
  have hwrit : writeTables st.contents [st.flushTable m first last]
      ((st.flushTable m first last).metadata sizing).number = m.entries :=
        writeTables_of_mem (pairwise_singleton _ _) mem_cons_self
  have hold : ∀ level, ∀ g ∈ st.version.files level, g.number < st.nextFileNumber := h.levels.fresh
  have hok : FileOk m.entries ((st.flushTable m first last).metadata sizing) :=
    ⟨hmem.sorted, by rw [hfst]; rfl, by rw [hlast]; rfl, hmem.valid⟩
  refine
    { unchanged := fun level g hg _ => writeTables_of_notMem
        (forall_mem_singleton.mpr (hold level g hg).ne')
      files := forall_mem_singleton.mpr ?_
      fresh := forall_mem_singleton.mpr (Nat.lt_succ_self _)
      numbers := nodup_singleton _
      new := forall_mem_singleton.mpr fun level g hg _ =>
        ⟨(hold level g hg).ne', fun a ha b hb _ => ?_⟩
      distinct := forall_mem_singleton.mpr (forall_mem_singleton.mpr
        fun a ha b hb _ hseq => ⟨rfl, ?_⟩)
      apart := fun _ => pairwise_singleton _ _
      apart_remaining := fun hpos => forall_mem_singleton.mpr fun g hg _ => ?_ }
  · rw [hwrit]
    exact hok
  · rw [hwrit] at ha
    have hnew := (hmem.range a ha).1
    have htab := h.tables level g hg b hb
    omega
  · rw [hwrit] at ha hb
    exact hmem.eq_of_sequence_eq ha hb hseq
  · rcases Version.not_overlap_pickLevel (fun f hf => h.levels.start_le_limit hf) hpos le_rfl hg
      with hside | hside
    · exact .inr (ikOrd_lt_of_userKey_lt hside)
    · exact .inl (ikOrd_lt_of_userKey_lt hside)

theorem isPicked_pickedBy (h : LevelsOk st.version st.contents st.nextFileNumber) {pick : Pick}
    (hx : st.pickedBy pick = some x) : x.IsPicked st.version := by
  have hvalid : ∀ f ∈ st.version.files 0, f.start ≤ f.limit := fun f hf => h.start_le_limit hf
  cases pick with
  | background fileToCompact =>
    exact Version.isPicked_pickCompaction hvalid h.compactionLevel hx
  | manual level first last => exact Version.isPicked_pickManualCompaction hvalid hx

theorem inputs_of_isTrivialMove (h : x.isTrivialMove = true) :
    ∃ f, x.inputs0 = [f] ∧ x.inputs1 = [] := by
  simp only [Compaction.isTrivialMove, Bool.and_eq_true, beq_iff_eq] at h
  obtain ⟨f, hf⟩ := length_eq_one_iff.mp h.1.1
  exact ⟨f, hf, List.isEmpty_iff.mp h.1.2⟩

/-- The two outcomes of a compaction that is carried out. -/
theorem doCompactionWork_cases (sizing : Sizing) (gaps : ℕ → ℕ) (st : Lsm bytewiseComparator)
    (x : Compaction) :
    (∃ f, x.inputs0 = [f] ∧ x.inputs1 = [] ∧ st.doCompactionWork sizing gaps x =
        { st with version := st.version.edited bytewiseComparator (trivialEdit x f) }) ∨
      st.doCompactionWork sizing gaps x =
        { st with
          version := st.version.edited bytewiseComparator
            (mergeEdit sizing x (st.merge sizing gaps x).tables)
          contents := writeTables st.contents (st.merge sizing gaps x).tables
          nextFileNumber := (st.merge sizing gaps x).nextFileNumber } := by
  rw [doCompactionWork, Tables.doCompactionWork]
  split_ifs with htrivial
  · obtain ⟨f, hinputs0, hinputs1⟩ := inputs_of_isTrivialMove htrivial
    exact .inl ⟨f, hinputs0, hinputs1, by rw [hinputs0]⟩
  · exact .inr rfl

/-- A flush takes no sequence number and leaves the snapshots alone. -/
theorem frame_flush (sizing : Sizing) (st : Lsm bytewiseComparator) :
    (st.flush sizing).lastSequence = st.lastSequence ∧
      (st.flush sizing).snapshots = st.snapshots := by
  rcases flush_cases sizing st with ⟨-, heq⟩ | ⟨m, -, -, heq⟩ | ⟨m, first, last, -, -, -, heq⟩ <;>
  · rw [heq]
    exact ⟨rfl, rfl⟩

/-- Nor does a compaction. -/
theorem frame_compact (sizing : Sizing) (st : Lsm bytewiseComparator) (pick : Pick) (gaps : ℕ → ℕ)
    (succeeds : Bool) :
    (st.compact sizing pick gaps succeeds).lastSequence = st.lastSequence ∧
      (st.compact sizing pick gaps succeeds).snapshots = st.snapshots := by
  rw [compact]
  rcases st.pickedBy pick with _ | x
  · exact ⟨rfl, rfl⟩
  · cases succeeds with
    | false => exact ⟨rfl, rfl⟩
    | true =>
      simp only [if_true]
      rcases doCompactionWork_cases sizing gaps (st.movePointer x) x with ⟨f, -, -, heq⟩ | heq <;>
      · rw [heq]
        exact ⟨rfl, rfl⟩

/-- **What a step does to the tables**: only a flush and a compaction that is carried out
change them. -/
theorem tables_step {P : Version → (ℕ → List Entry) → Prop} {action : Action}
    (h : P st.version st.contents) (hflush : P (st.flush sizing).version (st.flush sizing).contents)
    (hwork : ∀ pick gaps x, action = .compact pick gaps true → st.pickedBy pick = some x →
      P ((st.movePointer x).doCompactionWork sizing gaps x).version
        ((st.movePointer x).doCompactionWork sizing gaps x).contents) :
    P (step sizing st action).version (step sizing st action).contents := by
  cases action with
  | write valueType key value =>
    rw [step]
    split_ifs <;> exact h
  | rotate =>
    rw [step]
    split_ifs <;> exact h
  | flush => exact hflush
  | snapshot => exact h
  | release s => exact h
  | allocate => exact h
  | compact pick gaps succeeds =>
    rw [step, compact]
    rcases hx : st.pickedBy pick with _ | x
    · exact h
    · cases succeeds with
      | false => exact h
      | true => exact hwork pick gaps x rfl hx

theorem next_le_merge (sizing : Sizing) (gaps : ℕ → ℕ) (st : Lsm bytewiseComparator)
    (x : Compaction) :
    (st.merge sizing gaps x).Ok st.nextFileNumber :=
  (tables_mergeEntries sizing gaps _ _ _ _).1

/-- Where the entries of the files are after a merge. -/
theorem LevelsOk.mem_contents_merge (h : LevelsOk st.version st.contents st.nextFileNumber)
    (hx : x.IsPicked st.version) {gaps : ℕ → ℕ} {e : Entry}
    (hf : f ∈ (st.version.edited bytewiseComparator
      (mergeEdit sizing x (st.merge sizing gaps x).tables)).files level) :
    e ∈ writeTables st.contents (st.merge sizing gaps x).tables f.number ↔
      (level < numLevels ∧ f ∈ st.version.files level ∧
        ¬ (mergeEdit sizing x (st.merge sizing gaps x).tables).DeletesAt level f.number ∧
        e ∈ st.contents f.number) ∨
      (level = x.level + 1 ∧ ∃ t ∈ (st.merge sizing gaps x).tables,
        t.metadata sizing = f ∧ e ∈ t.entries) := by
  have hok := next_le_merge sizing gaps st x
  have hputs := @LevelsOk.puts_mergeEdit _ _ _ x sizing _ h hx fun t ht => (hok.fresh t ht).1
  have hwrit : ∀ t ∈ (st.merge sizing gaps x).tables, t.metadata sizing = f →
      writeTables st.contents (st.merge sizing gaps x).tables f.number = t.entries := by
    rintro t ht rfl
    exact writeTables_of_mem hok.numbers ht
  constructor
  · intro he
    rcases hputs.mem_files_edited.mp hf with ⟨hlev, hold, hdel⟩ | ⟨hlev, hnew⟩
    · rw [(@LevelsOk.fits_mergeEdit x sizing gaps st h hx).unchanged level f hold hdel] at he
      exact .inl ⟨hlev, hold, hdel, he⟩
    · obtain ⟨t, ht, heq⟩ := mem_map.mp hnew
      rw [hwrit t ht heq] at he
      exact .inr ⟨hlev, t, ht, heq, he⟩
  · rintro (⟨-, hold, hdel, he⟩ | ⟨-, t, ht, heq, he⟩)
    · rwa [(@LevelsOk.fits_mergeEdit x sizing gaps st h hx).unchanged level f hold hdel]
    · rwa [hwrit t ht heq]

/-- **A compaction keeps the invariant.** -/
theorem Inv.doCompactionWork (h : Inv st flushed rotated) (hx : x.IsPicked st.version)
    (gaps : ℕ → ℕ) : Inv (st.doCompactionWork sizing gaps x) flushed rotated := by
  rcases doCompactionWork_cases sizing gaps st x with ⟨f, hinputs0, hinputs1, heq⟩ | heq
  · have hputs : Puts st.version (trivialEdit x f) (x.level + 1) [f] := puts_trivialEdit hx.level_lt
    have hf : f ∈ st.version.files x.level := hx.inputs0.sublist.subset (by simp [hinputs0])
    rw [heq]
    refine { h with
      levels := h.levels.of_fits hputs (h.levels.fits_trivialEdit hx hinputs0 hinputs1) le_rfl
      tables := fun level g hg e he => ?_ }
    rcases hputs.mem_files_edited.mp hg with ⟨-, hold, -⟩ | ⟨-, hnew⟩
    · exact h.tables level g hold e he
    · rw [mem_singleton.mp hnew] at he
      exact h.tables _ f hf e he
  · have hok := next_le_merge sizing gaps st x
    rw [heq]
    refine { h with
      levels := h.levels.of_fits (h.levels.puts_mergeEdit hx fun t ht => (hok.fresh t ht).1)
        (h.levels.fits_mergeEdit hx) hok.next
      tables := fun level g hg e he => ?_ }
    rcases (h.levels.mem_contents_merge hx hg).mp he with ⟨-, hold, -, he⟩ | ⟨-, t, ht, -, he⟩
    · exact h.tables level g hold e he
    · obtain ⟨f, hf, hmem⟩ := (h.levels.tables_merge hx sizing gaps).2.1 t ht e he
      obtain ⟨level', hlev'⟩ := LevelsOk.mem_files_of_mem_inputs hx hf
      exact h.tables level' f hlev' e hmem

/-- **A flush keeps the invariant.** Its table takes over the sequence numbers of the memtable. -/
theorem Inv.flush (h : Inv st flushed rotated) :
    ∃ flushed', Inv (st.flush sizing) flushed' rotated := by
  have hnone : ∀ m ∈ (none : Option (MemTable bytewiseComparator)), MemOk m flushed rotated :=
    fun _ hm => by cases hm
  rcases flush_cases sizing st with
    ⟨-, heq⟩ | ⟨m, -, -, heq⟩ | ⟨m, first, last, himm, hfst, hlast, heq⟩
  · exact ⟨flushed, by rwa [heq]⟩
  · exact ⟨flushed, heq ▸ { h with imm := hnone }⟩
  · have hputs := @puts_flushEdit sizing st m first last
    have hfits := @Inv.fits_flushEdit sizing st flushed rotated h m first last himm hfst hlast
    refine ⟨rotated, heq ▸ { h with
      levels := h.levels.of_fits hputs hfits (Nat.le_succ _)
      tables := fun level f hf e he => ?_
      imm := fun _ hm => by cases hm
      flushed_le := le_rfl }⟩
    dsimp only at hf he
    rcases hputs.mem_files_edited.mp hf with ⟨-, hold, hdel⟩ | ⟨-, hnew⟩
    · rw [hfits.unchanged level f hold hdel] at he
      exact (h.tables level f hold e he).trans h.flushed_le
    · rw [mem_singleton.mp hnew] at he
      rw [show writeTables st.contents [st.flushTable m first last]
        ((st.flushTable m first last).metadata sizing).number = m.entries from
          writeTables_of_mem (pairwise_singleton _ _) mem_cons_self] at he
      exact ((h.imm m himm).range e he).2

theorem LevelsOk.mono (h : LevelsOk v contents next) (hle : next ≤ next') :
    LevelsOk v contents next' :=
  { h with fresh := fun level f hf => (h.fresh level f hf).trans_le hle }

/-- **One step keeps the invariant.** -/
theorem Inv.step (h : Inv st flushed rotated) (a : Action) :
    ∃ flushed' rotated', Inv (step sizing st a) flushed' rotated' := by
  cases a with
  | write valueType key value =>
    rw [Lsm.step]
    split_ifs with hmax
    · exact ⟨flushed, rotated, { h with
        mem := h.mem.add h.rotated_le hmax valueType key value
        rotated_le := h.rotated_le.trans (Nat.le_succ _)
        lastSequence_le := hmax }⟩
    · exact ⟨flushed, rotated, h⟩
  | rotate =>
    rw [Lsm.step]
    split_ifs with hnone
    · refine ⟨rotated, st.lastSequence, { h with
        tables := fun level f hf e he => (h.tables level f hf e he).trans h.flushed_le
        imm := ?_
        mem := memOk_empty _
        flushed_le := h.rotated_le
        rotated_le := le_rfl }⟩
      rintro _ ⟨⟩
      exact h.mem
    · exact ⟨flushed, rotated, h⟩
  | flush =>
    obtain ⟨flushed', hflush⟩ := h.flush
    exact ⟨flushed', rotated, hflush⟩
  | snapshot => exact ⟨flushed, rotated, { h with }⟩
  | release s => exact ⟨flushed, rotated, { h with }⟩
  | allocate => exact ⟨flushed, rotated, { h with levels := h.levels.mono (Nat.le_succ _) }⟩
  | compact pick gaps succeeds =>
    refine ⟨flushed, rotated, ?_⟩
    rw [Lsm.step, compact]
    rcases hx : st.pickedBy pick with _ | x
    · exact h
    · have hpick := isPicked_pickedBy h.levels hx
      have hptr : Inv (st.movePointer x) flushed rotated := { h with }
      cases succeeds with
      | false => exact hptr
      | true => exact hptr.doCompactionWork hpick gaps

theorem inv_empty : Inv {} 0 0 where
  levels :=
    { files := fun _ _ hf => absurd hf not_mem_nil
      fresh := fun _ _ hf => absurd hf not_mem_nil
      nodup := fun _ => nodup_nil
      unique := fun _ _ hf => absurd hf not_mem_nil
      distinct := fun _ _ hf => absurd hf not_mem_nil
      sorted := fun _ _ => List.Pairwise.nil
      bounded := fun _ _ => rfl
      compactionLevel := by decide }
  tables := fun _ _ hf => absurd hf not_mem_nil
  imm := fun _ hm => by cases hm
  mem := memOk_empty 0
  flushed_le := le_rfl
  rotated_le := le_rfl
  lastSequence_le := Nat.zero_le _

/-- **The invariant holds in every state of a run.** -/
theorem inv_run (sizing : Sizing) (actions : List Action) :
    ∃ flushed rotated, Inv (Runs.run (step sizing) empty actions) flushed rotated := by
  refine Runs.invariant_of_step (I := fun st => ∃ flushed rotated, Inv st flushed rotated) ?_
    ⟨0, 0, inv_empty⟩
  rintro st a ⟨flushed, rotated, h⟩
  exact h.step a

/-- **The levels of every reachable version.** The bounds of a file are in order, no file number
occurs twice, and below level 0 a file ends before the next one starts. -/
theorem levels_run (sizing : Sizing) (actions : List Action) :
    (∀ level, ∀ f ∈ (Runs.run (step sizing) empty actions).version.files level,
      (icmp bytewiseComparator f.smallest f.largest).isLE = true) ∧
    ((List.range numLevels).flatMap fun level =>
      ((Runs.run (step sizing) empty actions).version.files level).map (·.number)).Nodup ∧
    ∀ level, 0 < level → ((Runs.run (step sizing) empty actions).version.files level).Pairwise
      fun f g => icmp bytewiseComparator f.largest g.smallest = .lt := by
  obtain ⟨flushed, rotated, h⟩ := inv_run sizing actions
  refine ⟨fun level f hf => ?_, ?_, fun level hlev => ?_⟩
  · exact isLE_icmp_bytewise.mpr (h.levels.files level f hf).smallest_le_largest
  · refine nodup_flatMap.mpr ⟨fun level _ => ?_, ?_⟩
    · refine (h.levels.nodup level).map_on fun f hf g hg heq => ?_
      exact (h.levels.unique level f hf level g hg heq).2
    · refine nodup_range.imp fun {level level'} hne => disjoint_left.mpr ?_
      intro n hn hn'
      obtain ⟨f, hf, rfl⟩ := mem_map.mp hn
      obtain ⟨g, hg, heq⟩ := mem_map.mp hn'
      exact hne (h.levels.unique level f hf level' g hg heq.symm).1
  · exact (h.levels.sorted level hlev).imp fun hlt => icmp_bytewise_eq_lt.mpr hlt

end Lsm
end PulsearcDb
