import PulsearcDb.DbImpl.Background
import PulsearcDb.DbImpl.LsmLevels

/-!
# The table files in the directory

A merge retires its inputs (`db_impl/db_impl.rs`). They are deleted at once when no iterator is
live, and else when the last one is dropped, for an iterator opens the files of the deeper levels
only when it comes to them. There is one counter for all iterators and one list of retired numbers;
which version an iterator holds is not kept.

The files of the current version, of the versions behind the live iterators and of the inputs of a
running compaction are in the directory, and without iterators the retired ones are not. What
carries the proof is that a file number names one file: the numbers of a version are distinct over
all levels, and those of outputs on their way are in no version and not retired.
-/

namespace PulsearcDb

open List

/-! ### The files of an edited version -/

namespace Version

variable {c : Comparator} {v : Version} {edit : VersionEdit} {level : ℕ} {f : FileMetaData}

/-- A file of an edited version was there and is not deleted, or it is added. -/
theorem mem_files_edited (hf : f ∈ (v.edited c edit).files level) :
    (f ∈ v.files level ∧ (edit.DeletesAt level f.number → ∃ g ∈ edit.addedAt level,
      g.number = f.number)) ∨ f ∈ edit.addedAt level := by
  have hlev : level < numLevels := by
    by_contra hlev
    rw [edited, VersionBuilder.files_saveTo, if_neg hlev] at hf
    cases hf
  rw [edited, VersionBuilder.files_edited _ _ _ hlev, mem_insertionSort, mem_append,
    mem_filter] at hf
  refine hf.imp_left ?_
  rintro ⟨hmem, hkept⟩
  refine ⟨hmem, fun hd => ?_⟩
  rw [decide_eq_true_eq, VersionBuilder.mem_deletedFiles_apply] at hkept
  by_contra hadded
  push Not at hadded
  exact hkept ⟨.inr hd, hadded⟩

end Version

/-- The numbers of a version are distinct, they have been handed out, and they name files of the
directory. -/
structure Version.Stored (v : Version) (nextFileNumber : ℕ) (tableFiles : Finset ℕ) : Prop where
  unique : ∀ level, ∀ f ∈ v.files level, ∀ level', ∀ g ∈ v.files level', f.number = g.number →
    level = level' ∧ f = g
  fresh : ∀ level, ∀ f ∈ v.files level, f.number < nextFileNumber
  exist : ∀ level, ∀ f ∈ v.files level, f.number ∈ tableFiles

/-- The edits of a flush, of a trivial move and of a merge add files to one level. A file that was
there under the number of one of them stood in another level, and is deleted. -/
structure VersionEdit.Brings (edit : VersionEdit) (v : Version) (out : ℕ)
    (files : List FileMetaData) : Prop where
  newFiles : edit.newFiles = files.map fun f => ⟨out, f⟩
  distinct : (files.map FileMetaData.number).Nodup
  replaces : ∀ f ∈ files, ∀ level, ∀ g ∈ v.files level, g.number = f.number →
    level ≠ out ∧ edit.DeletesAt level g.number

namespace VersionEdit.Brings

variable {c : Comparator} {edit : VersionEdit} {v : Version} {out level n : ℕ}
  {files : List FileMetaData} {f g : FileMetaData} {tableFiles : Finset ℕ}

theorem of_addedAt (h : edit.Brings v out files) (hf : f ∈ edit.addedAt level) :
    level = out ∧ f ∈ files := by
  obtain ⟨hout, hother⟩ := Lsm.addedAt_map edit out files h.newFiles
  by_cases hlev : level = out
  · exact ⟨hlev, hout ▸ hlev ▸ hf⟩
  · rw [hother level hlev] at hf
    cases hf

/-- A file that stays has no number of a new one. -/
theorem number_ne (h : edit.Brings v out files) (hf : f ∈ files) (hg : g ∈ v.files level)
    (hkept : edit.DeletesAt level g.number → ∃ g' ∈ edit.addedAt level, g'.number = g.number) :
    g.number ≠ f.number := by
  intro heq
  obtain ⟨hlev, hd⟩ := h.replaces f hf level g hg heq
  obtain ⟨g', hg', -⟩ := hkept hd
  exact hlev (h.of_addedAt hg').1

theorem stored (h : edit.Brings v out files) (hs : v.Stored n tableFiles)
    (hfiles : ∀ f ∈ files, f.number < n ∧ f.number ∈ tableFiles) :
    (v.edited c edit).Stored n tableFiles := by
  refine ⟨fun level f hf level' g hg heq => ?_, fun level f hf => ?_, fun level f hf => ?_⟩
  · rcases Version.mem_files_edited hf with ⟨hf, hkeptf⟩ | hf <;>
      rcases Version.mem_files_edited hg with ⟨hg, hkeptg⟩ | hg
    · exact hs.unique level f hf level' g hg heq
    · exact absurd heq (h.number_ne (h.of_addedAt hg).2 hf hkeptf)
    · exact absurd heq.symm (h.number_ne (h.of_addedAt hf).2 hg hkeptg)
    · obtain ⟨hlev, hf⟩ := h.of_addedAt hf
      obtain ⟨hlev', hg⟩ := h.of_addedAt hg
      exact ⟨hlev.trans hlev'.symm, inj_on_of_nodup_map h.distinct hf hg heq⟩
  · rcases Version.mem_files_edited hf with ⟨hf, -⟩ | hf
    · exact hs.fresh level f hf
    · exact (hfiles f (h.of_addedAt hf).2).1
  · rcases Version.mem_files_edited hf with ⟨hf, -⟩ | hf
    · exact hs.exist level f hf
    · exact (hfiles f (h.of_addedAt hf).2).2

end VersionEdit.Brings

/-- The numbers that a job has taken. -/
def Job.numbers : Job → List ℕ
  | flush _ _ table _ => [table.number]
  | compaction work => work.outputs.map TableOutput.number

/-- The files that a job has written. -/
def Job.written : Job → List ℕ
  | flush _ _ table built => if built then [table.number] else []
  | compaction work => work.outputs.map TableOutput.number

theorem Job.written_subset (j : Job) : j.written ⊆ j.numbers := by
  cases j with
  | flush _ _ _ built => cases built <;> simp [Job.written, Job.numbers]
  | compaction => exact List.Subset.refl _

namespace Background

variable {c : Comparator} {sizing : Sizing} {st : Background c}

/-- A number that is handed out, and names neither a file of the current version nor a
retired one. -/
structure Unused (st : Background c) (n : ℕ) : Prop where
  lt : n < st.nextFileNumber
  current : ∀ level, ∀ f ∈ st.current.files level, f.number ≠ n
  retired : n ∉ st.retired

/-- The numbers of a job are unused and distinct, and what it has written is in the directory. -/
structure JobFiles (st : Background c) (j : Job) : Prop where
  unused : ∀ n ∈ j.numbers, st.Unused n
  distinct : j.numbers.Nodup
  written : ∀ n ∈ j.written, n ∈ st.tableFiles

/-- The versions, the jobs and the retired numbers against the directory. -/
structure FilesInv (st : Background c) : Prop where
  stored : st.current.Stored st.nextFileNumber st.tableFiles
  active : st.activeIterators = st.iterators.length
  iterators : ∀ v ∈ st.iterators, ∀ level, ∀ f ∈ v.files level, f.number ∈ st.tableFiles
  retired : ∀ n ∈ st.retired, n < st.nextFileNumber ∧
    (∀ level, ∀ f ∈ st.current.files level, f.number ≠ n) ∧
    (n ∈ st.obsoleteTableFileNumbers ∨ n ∉ st.tableFiles)
  obsolete : ∀ n ∈ st.obsoleteTableFileNumbers, n ∈ st.retired
  idle : st.activeIterators = 0 → st.obsoleteTableFileNumbers = []
  jobs : ∀ t j, st.job t = some j → st.JobFiles j

/-- **No table file is deleted while it can still be read**, and none stays for nothing. -/
structure TablesKept (st : Background c) : Prop where
  current : ∀ level, ∀ f ∈ st.current.files level, f.number ∈ st.tableFiles
  iterators : ∀ v ∈ st.iterators, ∀ level, ∀ f ∈ v.files level, f.number ∈ st.tableFiles
  inputs : ∀ t work, st.job t = some (.compaction work) →
    ∀ f ∈ work.compaction.inputs0 ++ work.compaction.inputs1, f.number ∈ st.tableFiles
  deleted : st.iterators = [] → ∀ n ∈ st.retired, n ∉ st.tableFiles

/-- The iterators, the numbers that wait for them, and all retired numbers. -/
def readers (st : Background c) : ℕ × List ℕ × List Version × List ℕ :=
  (st.activeIterators, st.obsoleteTableFileNumbers, st.iterators, st.retired)

variable {st' : Background c} {j : Job} {n : ℕ}

theorem of_readers_eq (h : st'.readers = st.readers) :
    st'.activeIterators = st.activeIterators ∧
      st'.obsoleteTableFileNumbers = st.obsoleteTableFileNumbers ∧
      st'.iterators = st.iterators ∧ st'.retired = st.retired := by
  simpa only [readers, Prod.mk.injEq] using h

theorem Unused.mono (h : st.Unused n) (hcur : st'.current = st.current)
    (hnext : st.nextFileNumber ≤ st'.nextFileNumber) (hr : st'.retired = st.retired) :
    st'.Unused n where
  lt := h.lt.trans_le hnext
  current := hcur ▸ h.current
  retired := hr ▸ h.retired

theorem JobFiles.mono (h : st.JobFiles j) (hcur : st'.current = st.current)
    (hnext : st.nextFileNumber ≤ st'.nextFileNumber) (hr : st'.retired = st.retired)
    (hsub : st.tableFiles ⊆ st'.tableFiles) : st'.JobFiles j where
  unused n hn := (h.unused n hn).mono hcur hnext hr
  distinct := h.distinct
  written n hn := hsub (h.written n hn)

/-- The files of a finished job become files of the version. -/
private theorem JobFiles.brings {edit : VersionEdit} {out : ℕ} {tables : List TableOutput}
    (hu : ∀ t ∈ tables, st.Unused t.number) (hdist : (tables.map TableOutput.number).Nodup)
    (hnew : edit.newFiles = tables.map fun t => ⟨out, t.metadata sizing⟩) :
    edit.Brings st.current out (tables.map (·.metadata sizing)) where
  newFiles := by rw [hnew, map_map]; rfl
  distinct := by rw [map_map]; exact hdist
  replaces f hf level g hg heq := by
    obtain ⟨t, ht, rfl⟩ := mem_map.mp hf
    exact absurd heq ((hu t ht).current level g hg)

private theorem number_outputTable (n : ℕ) (first : Entry) (more : List Entry) :
    (outputTable n first more).number = n := by
  induction more using List.reverseRecOn with
  | nil => rfl
  | append_singleton more e ih =>
    rw [outputTable, foldl_append]
    exact ih

section

variable (h : st.FilesInv)
include h

/-- A number that is just being handed out. -/
theorem FilesInv.unused_next (hnext : st.nextFileNumber < st'.nextFileNumber)
    (hcur : st'.current = st.current) (hr : st'.retired = st.retired) :
    st'.Unused st.nextFileNumber where
  lt := hnext
  current level f hf := (h.stored.fresh level f (hcur ▸ hf)).ne
  retired hmem := (h.retired _ (hr ▸ hmem)).1.ne rfl

/-- A step that writes files or hands out numbers. -/
theorem FilesInv.mono (hcur : st'.current = st.current)
    (hnext : st.nextFileNumber ≤ st'.nextFileNumber) (hsub : st.tableFiles ⊆ st'.tableFiles)
    (hnew : ∀ n ∈ st'.tableFiles, n ∈ st.retired → n ∈ st.tableFiles)
    (hreaders : st'.readers = st.readers) (hjobs : ∀ t j, st'.job t = some j → st'.JobFiles j) :
    st'.FilesInv := by
  obtain ⟨ha, hobs, hits, hr⟩ := of_readers_eq hreaders
  refine ⟨?_, by rw [ha, hits, h.active], fun v hv level f hf => ?_, fun n hn => ?_,
    by simpa only [hobs, hr] using h.obsolete,
    by simpa only [ha, hobs] using h.idle, hjobs⟩
  · rw [hcur]
    exact ⟨h.stored.unique, fun level f hf => (h.stored.fresh level f hf).trans_le hnext,
      fun level f hf => hsub (h.stored.exist level f hf)⟩
  · exact hsub (h.iterators v (hits ▸ hv) level f hf)
  · rw [hr] at hn
    obtain ⟨hlt, hnot, hgone⟩ := h.retired n hn
    rw [hcur, hobs]
    exact ⟨hlt.trans_le hnext, hnot, hgone.imp_right fun hnot hmem => hnot (hnew n hmem hn)⟩

/-- An edit is installed, and nobody is at work any more. -/
theorem FilesInv.install {edit : VersionEdit} {out : ℕ}
    {files : List FileMetaData} (hb : edit.Brings st.current out files)
    (hnew : ∀ f ∈ files, (f.number < st.nextFileNumber ∧ f.number ∈ st.tableFiles) ∧
      f.number ∉ st.retired)
    (hcur : st'.current = st.current.edited c edit)
    (hnext : st'.nextFileNumber = st.nextFileNumber) (hfiles : st'.tableFiles = st.tableFiles)
    (hreaders : st'.readers = st.readers) (hjobs : ∀ t, st'.job t = none) : st'.FilesInv := by
  obtain ⟨ha, hobs, hits, hr⟩ := of_readers_eq hreaders
  refine ⟨?_, by rw [ha, hits, h.active],
    by simpa only [hits, hfiles] using h.iterators, fun n hn => ?_,
    by simpa only [hobs, hr] using h.obsolete,
    by simpa only [ha, hobs] using h.idle, fun t j hj => ?_⟩
  · rw [hcur, hnext, hfiles]
    exact hb.stored h.stored fun f hf => (hnew f hf).1
  · rw [hr] at hn
    obtain ⟨hlt, hnot, hgone⟩ := h.retired n hn
    rw [hcur, hnext, hobs, hfiles]
    refine ⟨hlt, fun level f hf heq => ?_, hgone⟩
    rcases Version.mem_files_edited hf with ⟨hf, -⟩ | hf
    · exact hnot level f hf heq
    · exact (hnew f (hb.of_addedAt hf).2).2 (heq ▸ hn)
  · rw [hjobs] at hj
    cases hj

/-- Numbers that the current version does not name are retired, and nobody is at work. -/
theorem FilesInv.retire {numbers : List ℕ}
    (hnums : ∀ n ∈ numbers, n < st.nextFileNumber ∧
      ∀ level, ∀ f ∈ st.current.files level, f.number ≠ n)
    (hjobs : ∀ t, st.job t = none) : (st.retireTableFileNumbers numbers).FilesInv := by
  have hnone : ∀ t j, (st.retireTableFileNumbers numbers).job t = some j → False := by
    intro t j hj
    have hsame : (st.retireTableFileNumbers numbers).job t = st.job t := by
      rw [retireTableFileNumbers]
      split_ifs <;> rfl
    rw [hsame, hjobs] at hj
    cases hj
  by_cases hidle : st.activeIterators = 0
  · have hits : st.iterators = [] := eq_nil_of_length_eq_zero (h.active ▸ hidle)
    have heq : st.retireTableFileNumbers numbers =
        { st with
          retired := st.retired ++ numbers
          tableFiles := st.tableFiles \ numbers.toFinset } := if_pos hidle
    rw [heq] at hnone ⊢
    refine ⟨⟨h.stored.unique, h.stored.fresh, fun level f hf => ?_⟩, h.active, ?_, fun n hn => ?_,
      fun n hn => mem_append_left _ (h.obsolete n hn), h.idle, fun t j hj =>
        (hnone t j hj).elim⟩
    · refine Finset.mem_sdiff.mpr ⟨h.stored.exist level f hf, fun hmem => ?_⟩
      exact (hnums f.number (mem_toFinset.mp hmem)).2 level f hf rfl
    · rw [hits]
      simp
    · rcases mem_append.mp hn with hn | hn
      · obtain ⟨hlt, hnot, hgone⟩ := h.retired n hn
        exact ⟨hlt, hnot, hgone.imp_right fun hnot hmem => hnot (Finset.mem_sdiff.mp hmem).1⟩
      · refine ⟨(hnums n hn).1, (hnums n hn).2, .inr fun hmem => ?_⟩
        exact (Finset.mem_sdiff.mp hmem).2 (mem_toFinset.mpr hn)
  · have heq : st.retireTableFileNumbers numbers =
        { st with
          retired := st.retired ++ numbers
          obsoleteTableFileNumbers := st.obsoleteTableFileNumbers ++ numbers } := if_neg hidle
    rw [heq] at hnone ⊢
    refine ⟨h.stored, h.active, h.iterators, fun n hn => ?_, fun n hn => ?_,
      fun hzero => absurd hzero hidle, fun t j hj => (hnone t j hj).elim⟩
    · rcases mem_append.mp hn with hn | hn
      · obtain ⟨hlt, hnot, hgone⟩ := h.retired n hn
        exact ⟨hlt, hnot, hgone.imp_left (mem_append_left _)⟩
      · exact ⟨(hnums n hn).1, (hnums n hn).2, .inl (mem_append_right _ hn)⟩
    · rcases mem_append.mp hn with hn | hn
      · exact mem_append_left _ (h.obsolete n hn)
      · exact mem_append_right _ hn

private theorem FilesInv.trivialMove {x : Compaction} {f : FileMetaData}
    (hf : f ∈ st.current.files x.level) (hjobs : ∀ t, st.job t = none) :
    (st.logAndApply (Lsm.trivialEdit x f)).FilesInv := by
  have hb : (Lsm.trivialEdit x f).Brings st.current (x.level + 1) [f] := by
    refine ⟨rfl, by simp, fun f' hf' level g hg heq => ?_⟩
    obtain rfl := mem_singleton.mp hf'
    obtain ⟨rfl, rfl⟩ := h.stored.unique level g hg x.level f' hf heq
    exact ⟨(Nat.lt_succ_self _).ne, Lsm.deletesAt_trivialEdit.mpr ⟨rfl, rfl⟩⟩
  refine h.install hb (fun f' hf' => ?_) rfl rfl rfl rfl hjobs
  obtain rfl := mem_singleton.mp hf'
  exact ⟨⟨h.stored.fresh _ f' hf, h.stored.exist _ f' hf⟩,
    fun hr => (h.retired _ hr).2.1 _ f' hf rfl⟩

private theorem FilesInv.mergeInstall {work : Work} (hwork : st.JobFiles (.compaction work))
    (hpicks : st.current.Picks c work.compaction) (hjobs : ∀ t, st.job t = none) :
    ((st.logAndApply (Lsm.mergeEdit sizing work.compaction work.outputs)).retireTableFileNumbers
      ((work.compaction.inputs0 ++ work.compaction.inputs1).map FileMetaData.number)).FilesInv := by
  set edit := Lsm.mergeEdit sizing work.compaction work.outputs with hedit
  have hu : ∀ t ∈ work.outputs, st.Unused t.number := fun t ht =>
    hwork.unused _ (mem_map_of_mem ht)
  have hb : edit.Brings st.current (work.compaction.level + 1)
      (work.outputs.map (·.metadata sizing)) := JobFiles.brings hu hwork.distinct rfl
  have hinst : (st.logAndApply edit).FilesInv := by
    refine h.install hb (fun f hf => ?_) rfl rfl rfl rfl hjobs
    obtain ⟨t, ht, rfl⟩ := mem_map.mp hf
    exact ⟨⟨(hu t ht).lt, hwork.written _ (mem_map_of_mem ht)⟩, (hu t ht).retired⟩
  have hins : ∀ f ∈ work.compaction.inputs0 ++ work.compaction.inputs1,
      ∃ level, f ∈ st.current.files level ∧ edit.DeletesAt level f.number := by
    obtain ⟨-, hinputs0, hinputs1⟩ := Version.Picks.inputs hpicks
    intro f hf
    rcases mem_append.mp hf with hf | hf
    · exact ⟨_, hinputs0 hf, Lsm.deletesAt_mergeEdit.mpr (.inl ⟨rfl, f, hf, rfl⟩)⟩
    · exact ⟨_, hinputs1 hf, Lsm.deletesAt_mergeEdit.mpr (.inr ⟨rfl, f, hf, rfl⟩)⟩
  refine hinst.retire (fun n hn => ?_) hjobs
  obtain ⟨f, hf, rfl⟩ := mem_map.mp hn
  obtain ⟨level, hmem, hd⟩ := hins f hf
  have hnot : ∀ g ∈ work.outputs.map (·.metadata sizing), f.number ≠ g.number := fun g hg => by
    obtain ⟨t, ht, rfl⟩ := mem_map.mp hg
    exact (hu t ht).current level f hmem
  refine ⟨h.stored.fresh level f hmem, fun level' g hg heq => ?_⟩
  rcases Version.mem_files_edited hg with ⟨hg, hkept⟩ | hg
  · obtain ⟨rfl, rfl⟩ := h.stored.unique level' g hg level f hmem heq
    obtain ⟨g', hg', heq'⟩ := hkept hd
    exact hnot g' (hb.of_addedAt hg').2 heq'.symm
  · exact hnot g (hb.of_addedAt hg).2 heq.symm

/-- The end of a compaction, when its thread is not at work any more. -/
private theorem FilesInv.installWork {work : Work} (hwork : st.JobFiles (.compaction work))
    (hpicks : st.current.Picks c work.compaction) (hjobs : ∀ t, st.job t = none) :
    (st.installWork sizing work).FilesInv := by
  rw [Background.installWork]
  by_cases htrivial : work.compaction.isTrivialMove
  · rw [if_pos htrivial]
    split
    · exact h
    · rename_i f _ hins
      obtain ⟨-, hinputs0, -⟩ := Version.Picks.inputs hpicks
      exact h.trivialMove (hinputs0 (hins ▸ mem_cons_self)) hjobs
  · rw [if_neg htrivial]
    exact h.mergeInstall hwork hpicks hjobs

/-! ### Iterators -/

private theorem FilesInv.newIterator : st.newIterator.FilesInv := by
  rw [Background.newIterator]
  split_ifs
  · exact h
  · refine ⟨h.stored, by simp [h.active], fun v hv level f hf => ?_, h.retired, h.obsolete,
      fun hzero => absurd hzero (Nat.succ_ne_zero _),
      fun t j hj => (h.jobs t j hj).mono rfl le_rfl rfl subset_rfl⟩
    rcases mem_append.mp hv with hv | hv
    · exact h.iterators v hv level f hf
    · obtain rfl := mem_singleton.mp hv
      exact h.stored.exist level f hf

/-- The last iterator is dropped: the files that are deleted are in no version and of no job. -/
private theorem FilesInv.deleteObsolete (ha : st'.activeIterators = 0)
    (hits : st'.iterators = []) (hobs : st'.obsoleteTableFileNumbers = [])
    (hcur : st'.current = st.current) (hnext : st'.nextFileNumber = st.nextFileNumber)
    (hfiles : st'.tableFiles = st.tableFiles \ st.obsoleteTableFileNumbers.toFinset)
    (hr : st'.retired = st.retired) (hjob : st'.job = st.job) : st'.FilesInv := by
  have hkeeps : ∀ n ∈ st.tableFiles, n ∉ st.retired → n ∈ st'.tableFiles := fun n hn hnot => by
    rw [hfiles]
    exact Finset.mem_sdiff.mpr ⟨hn, fun hmem => hnot (h.obsolete n (mem_toFinset.mp hmem))⟩
  refine ⟨?_, by simp [ha, hits], by simp [hits], fun n hn => ?_,
    by simp [hobs], fun _ => hobs, fun t j hj => ?_⟩
  · rw [hcur, hnext]
    exact ⟨h.stored.unique, h.stored.fresh, fun level f hf => hkeeps _ (h.stored.exist level f hf)
      fun hmem => (h.retired _ hmem).2.1 level f hf rfl⟩
  · rw [hr] at hn
    obtain ⟨hlt, hnot, hgone⟩ := h.retired n hn
    rw [hcur, hnext, hfiles]
    refine ⟨hlt, hnot, .inr fun hmem => ?_⟩
    obtain ⟨hmem, hkept⟩ := Finset.mem_sdiff.mp hmem
    rcases hgone with hgone | hgone
    · exact hkept (mem_toFinset.mpr hgone)
    · exact hgone hmem
  · have hfiles := h.jobs t j (hjob ▸ hj)
    exact ⟨fun n hn => (hfiles.unused n hn).mono hcur hnext.ge hr, hfiles.distinct,
      fun n hn => hkeeps n (hfiles.written n hn) (hfiles.unused n (j.written_subset hn)).retired⟩

private theorem FilesInv.dropIterator (index : ℕ) : (st.dropIterator index).FilesInv := by
  rw [Background.dropIterator]
  by_cases hidx : index < st.iterators.length
  · have hlen : (st.iterators.eraseIdx index).length = st.activeIterators - 1 := by
      rw [length_eraseIdx_of_lt hidx, h.active]
    rw [if_pos hidx, releaseIterator]
    by_cases hlast : st.activeIterators - 1 = 0 ∧ st.obsoleteTableFileNumbers ≠ []
    · rw [if_pos hlast]
      exact h.deleteObsolete hlast.1 (eq_nil_of_length_eq_zero (hlen.trans hlast.1)) rfl rfl
        rfl rfl rfl rfl
    · rw [if_neg hlast]
      refine ⟨h.stored, hlen.symm, fun v hv => h.iterators v (mem_of_mem_eraseIdx hv),
        h.retired, h.obsolete, fun hzero => ?_,
        fun t j hj => (h.jobs t j hj).mono rfl le_rfl rfl subset_rfl⟩
      by_contra hne
      exact hlast ⟨hzero, hne⟩
  · rw [if_neg hidx]
    exact h

/-! ### The worker and the callers -/

section Frame

variable (hcur : st'.current = st.current) (hnext : st.nextFileNumber ≤ st'.nextFileNumber)
  (hfiles : st'.tableFiles = st.tableFiles) (hreaders : st'.readers = st.readers)
include hcur hnext hfiles hreaders

/-- A step that changes no file, and only begins jobs that have taken no number. -/
theorem FilesInv.of_eq (hjob : ∀ t j, st'.job t = some j →
      st.job t = some j ∨ ∃ x, j = .compaction { compaction := x }) : st'.FilesInv := by
  refine h.mono hcur hnext (hfiles ▸ subset_rfl) (fun n hn _ => hfiles ▸ hn) hreaders
    fun t j hj => ?_
  rcases hjob t j hj with hj | ⟨x, rfl⟩
  · exact (h.jobs t j hj).mono hcur hnext (of_readers_eq hreaders).2.2.2 (hfiles ▸ subset_rfl)
  · exact ⟨by simp [Job.numbers], nodup_nil, by simp [Job.written]⟩

/-- The worker moves on without touching a file. A compaction that it begins has taken no number. -/
private theorem FilesInv.of_worker (hc : st'.callers = st.callers)
    (hw : ∀ j, st'.worker = .working j → ∃ x, j = .compaction { compaction := x }) :
    st'.FilesInv := by
  refine h.of_eq hcur hnext hfiles hreaders fun t j hj => ?_
  cases t with
  | worker => exact .inr (hw j (job_worker_eq_some.mp hj))
  | caller i => exact .inl (by rwa [job, ← hc])

/-- A caller moves on without touching a file. -/
private theorem FilesInv.of_caller {caller : ℕ} {place : CallerAt} (hw : st'.worker = st.worker)
    (hc : st'.callers = Function.update st.callers caller place)
    (hp : ∀ work, place = .working work → ∃ x, work = { compaction := x }) :
    st'.FilesInv := by
  refine h.of_eq hcur hnext hfiles hreaders fun t j hj => ?_
  cases t with
  | worker => exact .inl (by rwa [job, ← hw])
  | caller i =>
    by_cases hi : i = caller
    · obtain ⟨work, hwork, rfl⟩ := job_caller_eq_some.mp hj
      rw [hc, hi, Function.update_self] at hwork
      obtain ⟨x, rfl⟩ := hp work hwork
      exact .inr ⟨x, rfl⟩
    · refine .inl ?_
      rwa [job, hc, Function.update_of_ne hi] at hj

end Frame

private theorem FilesInv.workerStart : st.workerStart.FilesInv := by
  rw [Background.workerStart]
  split
  · split_ifs
    · exact h
    · exact h.of_eq rfl le_rfl rfl rfl fun t j hj => .inl hj
    · exact h.of_worker rfl le_rfl rfl rfl rfl (by simp)
  · exact h

private theorem FilesInv.workerLook : st.workerLook.FilesInv := by
  rw [Background.workerLook]
  split
  · refine h.of_worker rfl le_rfl rfl rfl rfl ?_
    dsimp only
    intro j hj
    split_ifs at hj
  · exact h

/-- The new table of a flush has taken the next number. -/
private theorem FilesInv.workerCollect (entries : List Entry) :
    (st.workerCollect entries).FilesInv := by
  rw [Background.workerCollect]
  split
  · split
    · split
      · refine h.mono rfl (Nat.le_succ _) subset_rfl (fun n hn _ => hn) rfl fun t j hj => ?_
        cases t with
        | worker =>
          obtain rfl := WorkerAt.working.inj (job_worker_eq_some.mp hj)
          refine ⟨fun n hn => ?_, nodup_singleton _, by simp [Job.written]⟩
          obtain rfl := mem_singleton.mp hn
          exact h.unused_next (Nat.lt_succ_self _) rfl rfl
        | caller i => exact (h.jobs (.caller i) j hj).mono rfl (Nat.le_succ _) rfl subset_rfl
      · exact h.of_worker rfl le_rfl rfl rfl rfl (by simp)
    · exact h.of_worker rfl le_rfl rfl rfl rfl (by simp)
  · exact h

private theorem FilesInv.workerBuild : st.workerBuild.FilesInv := by
  rw [Background.workerBuild]
  split
  · rename_i base level table hw
    have hjob := h.jobs .worker _ (job_worker_eq_some.mpr hw)
    have hu : st.Unused table.number := hjob.unused _ mem_cons_self
    refine h.mono rfl le_rfl (Finset.subset_insert _ _) (fun n hn hr => ?_) rfl fun t j hj => ?_
    · exact (Finset.mem_insert.mp hn).resolve_left fun heq => hu.retired (heq ▸ hr)
    · cases t with
      | worker =>
        obtain rfl := WorkerAt.working.inj (job_worker_eq_some.mp hj)
        exact ⟨fun n hn => (hjob.unused n hn).mono rfl le_rfl rfl, hjob.distinct,
          by simp [Job.written]⟩
      | caller i =>
        exact (h.jobs (.caller i) j hj).mono rfl le_rfl rfl (Finset.subset_insert _ _)
  · exact h

private theorem FilesInv.workerPick (fileToCompact : Option (ℕ × ℕ)) (compactPointer : ℕ → Bytes) :
    (st.workerPick fileToCompact compactPointer).FilesInv := by
  rw [Background.workerPick]
  split
  · split
    · exact h.of_worker rfl le_rfl rfl rfl rfl (by simp)
    · rename_i x _
      refine h.of_worker rfl le_rfl rfl rfl rfl ?_
      rintro j ⟨⟩
      exact ⟨x, rfl⟩
  · exact h

private theorem FilesInv.workerEnd : st.workerEnd.FilesInv := by
  rw [Background.workerEnd]
  split
  · exact h.of_worker rfl le_rfl rfl rfl rfl (by simp)
  · exact h.of_worker rfl le_rfl rfl rfl rfl (by simp)
  · exact h

/-- A compaction writes an output. -/
private theorem FilesInv.output {work : Work} (first : Entry)
    (more : List Entry) (hwork : st.JobFiles (.compaction work))
    (hcur : st'.current = st.current) (hnext : st'.nextFileNumber = st.nextFileNumber + 1)
    (hfiles : st'.tableFiles = insert st.nextFileNumber st.tableFiles)
    (hreaders : st'.readers = st.readers)
    (hjob : ∀ t j, st'.job t = some j →
      st.job t = some j ∨ j = .compaction (st.output work first more).2) : st'.FilesInv := by
  have hr := (of_readers_eq hreaders).2.2.2
  have hu : st'.Unused st.nextFileNumber := h.unused_next (hnext ▸ Nat.lt_succ_self _) hcur hr
  have hle : st.nextFileNumber ≤ st'.nextFileNumber := hnext ▸ Nat.le_succ _
  have hsub : st.tableFiles ⊆ st'.tableFiles := hfiles ▸ Finset.subset_insert _ _
  refine h.mono hcur hle hsub (fun n hn hmem => ?_) hreaders fun t j hj => ?_
  · rw [hfiles] at hn
    refine (Finset.mem_insert.mp hn).resolve_left fun heq => hu.retired ?_
    rw [hr]
    exact heq ▸ hmem
  · rcases hjob t j hj with hj | rfl
    · exact (h.jobs t j hj).mono hcur hle hr hsub
    · have hnums : (Job.compaction (st.output work first more).2).numbers =
          (Job.compaction work).numbers ++ [st.nextFileNumber] := by
        simp only [Job.numbers, Background.output, map_append, map_singleton, number_outputTable]
      refine ⟨fun n hn => ?_, ?_, fun n hn => ?_⟩
      · rcases mem_append.mp (hnums ▸ hn) with hn | hn
        · exact (hwork.unused n hn).mono hcur hle hr
        · obtain rfl := mem_singleton.mp hn
          exact hu
      · rw [hnums]
        refine hwork.distinct.append (nodup_singleton _) fun n hn hmem => ?_
        obtain rfl := mem_singleton.mp hmem
        exact (hwork.unused _ hn).lt.ne rfl
      · rcases mem_append.mp (hnums ▸ Job.written_subset _ hn) with hn | hn
        · exact hsub (hwork.written n hn)
        · obtain rfl := mem_singleton.mp hn
          exact hfiles ▸ Finset.mem_insert_self _ _

private theorem FilesInv.workerOutput (first : Entry) (more : List Entry) :
    (st.workerOutput first more).FilesInv := by
  rw [Background.workerOutput]
  split
  · rename_i work hw
    split
    · exact h
    · have hwork := h.jobs .worker _ (job_worker_eq_some.mpr hw)
      refine h.output first more hwork rfl rfl rfl rfl fun t j hj => ?_
      cases t with
      | worker => exact .inr (WorkerAt.working.inj (job_worker_eq_some.mp hj)).symm
      | caller i => exact .inl hj
  · exact h

private theorem FilesInv.callerOutput (caller : ℕ) (first : Entry) (more : List Entry) :
    (st.callerOutput caller first more).FilesInv := by
  rw [Background.callerOutput]
  split
  · rename_i work hcall
    split
    · exact h
    · have hwork := h.jobs (.caller caller) _ (job_caller_eq_some.mpr ⟨work, hcall, rfl⟩)
      refine h.output first more hwork rfl rfl rfl rfl fun t j hj => ?_
      cases t with
      | worker => exact .inl hj
      | caller i =>
        obtain ⟨work', hwork', rfl⟩ := job_caller_eq_some.mp hj
        have hp := (Function.update_apply st.callers caller _ i).symm.trans hwork'
        split_ifs at hp
        · exact .inr (congrArg Job.compaction (CallerAt.working.inj hp).symm)
        · exact .inl (job_caller_eq_some.mpr ⟨work', hp, rfl⟩)
  · exact h

private theorem FilesInv.callerPick (caller level : ℕ) (first last : Option Bytes) :
    (st.callerPick caller level first last).FilesInv := by
  rw [Background.callerPick]
  split
  · split
    · exact h
    · split
      · exact h
      · rename_i x _
        refine h.of_caller rfl le_rfl rfl rfl rfl rfl ?_
        rintro work ⟨⟩
        exact ⟨x, rfl⟩
  · exact h

private theorem FilesInv.callerFail (caller : ℕ) (e : Status) :
    (st.callerFail caller e).FilesInv := by
  rw [Background.callerFail]
  split
  · exact h.of_caller rfl le_rfl rfl rfl rfl rfl (by simp)
  · exact h

private theorem FilesInv.callerEnd (caller : ℕ) : (st.callerEnd caller).FilesInv := by
  rw [Background.callerEnd]
  split
  · exact h.of_caller rfl le_rfl rfl rfl rfl rfl (by simp)
  · exact h

private theorem FilesInv.workerFail (e : Status) : (st.workerFail e).FilesInv := by
  rw [Background.workerFail]
  split
  · exact h.of_worker rfl le_rfl rfl rfl rfl (by simp)
  · exact h

end

/-! ### Installs -/

/-- The worker is done with its job, so nobody is at work. -/
private theorem WorkInv.job_eq_none_of_worker (h : st.WorkInv) (hw : st.worker ≠ .waiting)
    (hc : st'.callers = st.callers) (hdone : ∀ j, st'.worker ≠ .working j) (t : Thread) :
    st'.job t = none := by
  refine Option.eq_none_iff_forall_ne_some.mpr fun j hj => ?_
  cases t with
  | worker => exact hdone j (job_worker_eq_some.mp hj)
  | caller i =>
    obtain ⟨work, hwork, -⟩ := job_caller_eq_some.mp hj
    rw [hc, h.callers_outside hw] at hwork
    cases hwork

/-- A caller is done with its job, so nobody is at work. -/
private theorem WorkInv.job_eq_none_of_caller (h : st.WorkInv) {caller : ℕ} {place : CallerAt}
    (hcall : st.callers caller ≠ .outside) (hw : st'.worker = st.worker)
    (hc : st'.callers = Function.update st.callers caller place)
    (hdone : ∀ work, place ≠ .working work) (t : Thread) : st'.job t = none := by
  refine Option.eq_none_iff_forall_ne_some.mpr fun j hj => ?_
  cases t with
  | worker =>
    have hworking := job_worker_eq_some.mp hj
    rw [hw, h.worker_waiting hcall] at hworking
    cases hworking
  | caller i =>
    obtain ⟨work, hwork, -⟩ := job_caller_eq_some.mp hj
    rw [hc, Function.update_apply] at hwork
    split_ifs at hwork with hi
    · exact hdone work hwork
    · exact hi (h.callers i caller (by rw [hwork]; simp) hcall)

/-- An install does not look at where the threads stand. -/
private theorem installWork_places (sizing : Sizing) (st : Background c) (work : Work)
    (worker : WorkerAt) (callers : ℕ → CallerAt) :
    ({ st.installWork sizing work with worker, callers } : Background c) =
      installWork sizing ({ st with worker, callers } : Background c) work := by
  by_cases htrivial : work.compaction.isTrivialMove = true
  · rw [Background.installWork, Background.installWork, if_pos htrivial, if_pos htrivial]
    cases work.compaction.inputs0 <;> rfl
  · rw [Background.installWork, Background.installWork, if_neg htrivial, if_neg htrivial]
    unfold retireTableFileNumbers
    by_cases hidle : st.activeIterators = 0
    · rw [if_pos (by exact hidle), if_pos (by exact hidle)]
      rfl
    · rw [if_neg (by exact hidle), if_neg (by exact hidle)]
      rfl

private theorem installWork_worker (st : Background c) (work : Work) (worker : WorkerAt) :
    ({ st.installWork sizing work with worker } : Background c) =
      installWork sizing ({ st with worker } : Background c) work := by
  obtain ⟨-, -, -, hc⟩ := st.installWork_frame sizing work
  rw [← installWork_places sizing st work worker st.callers, ← hc]

private theorem installWork_goto (st : Background c) (work : Work) (caller : ℕ) (place : CallerAt) :
    (st.installWork sizing work).goto caller place =
      installWork sizing (st.goto caller place) work := by
  obtain ⟨-, -, hw, hc⟩ := st.installWork_frame sizing work
  refine Eq.trans ?_ (installWork_places sizing st work st.worker
    (Function.update st.callers caller place))
  rw [← hw, ← hc, goto]

private theorem FilesInv.workerInstall (h : st.FilesInv) (hinv : st.WorkInv)
    (fault : Option Status) : (st.workerInstall sizing fault).FilesInv := by
  unfold Background.workerInstall
  split
  · rename_i base level table hw
    have hjob := h.jobs _ _ (job_worker_eq_some.mpr hw)
    have hu : st.Unused table.number := hjob.unused _ mem_cons_self
    have hb : VersionEdit.Brings { newFiles := [⟨level, table.metadata sizing⟩] } st.current
        level [table.metadata sizing] :=
      @JobFiles.brings c sizing st _ level [table] (by simpa using hu) (by simp) rfl
    refine h.install hb (fun f hf => ?_) rfl rfl rfl rfl
      (hinv.job_eq_none_of_worker (by simp [hw]) rfl (by simp))
    obtain rfl := mem_singleton.mp hf
    exact ⟨⟨hu.lt, hjob.written _ mem_cons_self⟩, hu.retired⟩
  · exact h.of_worker rfl le_rfl rfl rfl rfl (by simp)
  · rename_i work hw
    have hjob : st.job .worker = some (.compaction work) := job_worker_eq_some.mpr hw
    have hidle : FilesInv { st with worker := .picking } :=
      h.of_worker rfl le_rfl rfl rfl rfl (by simp)
    rw [installWork_worker]
    exact hidle.installWork ((h.jobs _ _ hjob).mono rfl le_rfl rfl subset_rfl)
      (hinv.chosen _ _ hjob).2 (hinv.job_eq_none_of_worker (by simp [hw]) rfl (by simp))
  · exact h.of_worker rfl le_rfl rfl rfl rfl (by simp)
  · exact h

private theorem FilesInv.callerInstall (h : st.FilesInv) (hinv : st.WorkInv) (caller : ℕ)
    (fault : Option Status) : (st.callerInstall sizing caller fault).FilesInv := by
  unfold Background.callerInstall
  split
  · rename_i work hcall
    have hjob : st.job (.caller caller) = some (.compaction work) :=
      job_caller_eq_some.mpr ⟨work, hcall, rfl⟩
    have hidle : (st.goto caller (.ended (.ok ()))).FilesInv :=
      h.of_caller rfl le_rfl rfl rfl rfl rfl (by simp)
    rw [installWork_goto]
    exact hidle.installWork ((h.jobs _ _ hjob).mono rfl le_rfl rfl subset_rfl)
      (hinv.chosen _ _ hjob).2 (hinv.job_eq_none_of_caller (by simp [hcall]) rfl rfl (by simp))
  · exact h.of_caller rfl le_rfl rfl rfl rfl rfl (by simp)
  · exact h

/-- **Every step keeps the files that can be read.** -/
theorem FilesInv.step (h : st.FilesInv) (hinv : st.WorkInv) (action : Action) :
    (st.step sizing action).FilesInv := by
  by_cases hwriter : action.isWriter = true
  · obtain ⟨_, _, _, _, _, _, hnext, heq⟩ := st.step_of_isWriter sizing hwriter
    rw [heq]
    exact h.of_eq rfl hnext rfl rfl fun t j hj => .inl hj
  cases action with
  | rotate | schedule | lead | append | sync | publish => exact absurd rfl hwriter
  | newIterator => exact h.newIterator
  | dropIterator index => exact h.dropIterator index
  | workerStart => exact h.workerStart
  | workerLook => exact h.workerLook
  | workerCollect entries => exact h.workerCollect entries
  | workerBuild => exact h.workerBuild
  | workerPick fileToCompact compactPointer => exact h.workerPick fileToCompact compactPointer
  | workerOutput first more => exact h.workerOutput first more
  | workerFail e => exact h.workerFail e
  | workerInstall fault => exact h.workerInstall hinv fault
  | workerEnd => exact h.workerEnd
  | callerPick caller level first last => exact h.callerPick caller level first last
  | callerOutput caller first more => exact h.callerOutput caller first more
  | callerFail caller e => exact h.callerFail caller e
  | callerInstall caller fault => exact h.callerInstall hinv caller fault
  | callerEnd caller => exact h.callerEnd caller

theorem FilesInv.opened {current : Version} {nextFileNumber : ℕ} {tableFiles : Finset ℕ}
    (hs : current.Stored nextFileNumber tableFiles) :
    (Background.opened c current nextFileNumber tableFiles).FilesInv where
  stored := hs
  active := rfl
  iterators := by simp [Background.opened]
  retired := by simp [Background.opened]
  obsolete := by simp [Background.opened]
  idle _ := rfl
  jobs t j hj := by cases t <;> cases hj

theorem FilesInv.tablesKept (h : st.FilesInv) (hinv : st.WorkInv) : st.TablesKept where
  current := h.stored.exist
  iterators := h.iterators
  inputs t work hwork f hf := by
    obtain ⟨-, hinputs0, hinputs1⟩ := Version.Picks.inputs (hinv.chosen t _ hwork).2
    rcases mem_append.mp hf with hf | hf
    · exact h.stored.exist _ f (hinputs0 hf)
    · exact h.stored.exist _ f (hinputs1 hf)
  deleted hnil n hn := by
    have hobs := h.idle (by rw [h.active, hnil, length_nil])
    refine (h.retired n hn).2.2.resolve_left fun hmem => ?_
    rw [hobs] at hmem
    cases hmem

/-- **No table file is deleted while it can still be read**, in every run on a version whose files
are in the directory. -/
theorem tablesKept_run (c : Comparator) (sizing : Sizing) (current : Version) (nextFileNumber : ℕ)
    (tableFiles : Finset ℕ) (hs : current.Stored nextFileNumber tableFiles)
    (actions : List Action) :
    (Runs.run (step sizing) (opened c current nextFileNumber tableFiles) actions).TablesKept := by
  set st := Runs.run (step sizing) (opened c current nextFileNumber tableFiles) actions
  have hrun : st.WorkInv ∧ st.FilesInv :=
    Runs.invariant_of_step (I := fun st : Background c => st.WorkInv ∧ st.FilesInv)
      (fun _ action h => ⟨h.1.step action, h.2.step h.1 action⟩)
      ⟨.opened current nextFileNumber tableFiles, .opened hs⟩
  exact hrun.2.tablesKept hrun.1

/-- The two files of level 1 and the one of level 2 are merged under an iterator, which is dropped
then. -/
def mergeUnderIterator : List Action :=
  [.newIterator, .callerPick 0 1 none none, .callerOutput 0 ⟨internalKey [1] 1 .value, []⟩ [],
    .callerInstall 0 none, .callerEnd 0, .dropIterator 0]

private theorem stored_swappedVersion (a b : Bytes) : (swappedVersion a b).Stored 4 {1, 2, 3} := by
  have hfiles : ∀ level, ∀ f ∈ (swappedVersion a b).files level, level = 1 ∧ f = singleFile 1 a ∨
      level = 1 ∧ f = singleFile 2 b ∨ level = 2 ∧ f = singleFile 3 a := by
    intro level f hf
    dsimp only [swappedVersion, Version.finalize] at hf
    split_ifs at hf with hone htwo <;> simp_all
  refine ⟨fun level f hf level' g hg heq => ?_, fun level f hf => ?_, fun level f hf => ?_⟩
  · rcases hfiles level f hf with ⟨rfl, rfl⟩ | ⟨rfl, rfl⟩ | ⟨rfl, rfl⟩ <;>
      rcases hfiles level' g hg with ⟨rfl, rfl⟩ | ⟨rfl, rfl⟩ | ⟨rfl, rfl⟩ <;>
      first | exact ⟨rfl, rfl⟩ | cases heq
  · rcases hfiles level f hf with ⟨-, rfl⟩ | ⟨-, rfl⟩ | ⟨-, rfl⟩ <;> simp [singleFile]
  · rcases hfiles level f hf with ⟨-, rfl⟩ | ⟨-, rfl⟩ | ⟨-, rfl⟩ <;> simp [singleFile]

theorem tablesKept_mergeUnderIterator :
    (swappedVersion [1] [2]).Stored 4 {1, 2, 3} ∧
      (Runs.run (step ⟨List.length, List.length⟩)
        (opened bytewiseComparator (swappedVersion [1] [2]) 4 {1, 2, 3})
        mergeUnderIterator).TablesKept ∧
      (Runs.run (step ⟨List.length, List.length⟩)
        (opened bytewiseComparator (swappedVersion [1] [2]) 4 {1, 2, 3})
        mergeUnderIterator).retired = [1, 2, 3] :=
  ⟨stored_swappedVersion [1] [2], tablesKept_run _ _ _ _ _ (stored_swappedVersion [1] [2]) _,
    by decide +kernel⟩

end Background
end PulsearcDb
