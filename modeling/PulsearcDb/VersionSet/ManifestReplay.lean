import PulsearcDb.VersionSet.Manifest

/-!
# What a manifest holds

A manifest that is written by `log_and_apply` holds a list of edits, `Logged`: replaying it applies
them one after the other, whatever bytes follow. Every call that appends its record completely
adds its edit to the list; a call that fails without a byte of its record adds nothing. The
version that comes from the list is the one in memory as long as the edits in the list are those
of the calls that succeeded.
-/

namespace PulsearcDb

open Log List

/-! ### Appending and syncing -/

variable {edit : VersionEdit} {c : Comparator} {edits : List VersionEdit} {m : LogFile}

theorem appendToManifest_ok {m' : LogFile} {fault : Option Fault}
    (h : appendToManifest m fault edit = (.ok (), m')) : m' = m.appended edit.encode := by
  simpa using LogFile.addRecordUnder_ok h

theorem appendToManifest_none (m : LogFile) (edit : VersionEdit) :
    appendToManifest m none edit = (.ok (), m.appended edit.encode) := by
  simpa [appendToManifest] using m.addRecordUnder_none edit.encode []

theorem syncManifest_appended (m : LogFile) (data : Bytes) (fault : Option Fault) :
    (syncManifest (m.appended data) fault).2 = m.appended data :=
  m.syncUnder_appended data fault

/-! ### The records of a manifest -/

/-- The builder of `recover` after a list of edits. -/
def replayed (edits : List VersionEdit) : VersionBuilder :=
  edits.foldl VersionBuilder.apply { base := {} }

theorem replayRecord_encode (st : RecoverState) (h : edit.Encodable) :
    st.replayRecord edit.encode = (.ok (), st.apply edit) := by
  rw [RecoverState.replayRecord, VersionEdit.decodeFrom_encode h]

/-- The records of the log are the encodings of the edits. -/
structure HoldsEdits (m : LogFile) (edits : List VersionEdit) : Prop where
  holds : m.Holds (edits.map VersionEdit.encode)
  encodable : ∀ edit ∈ edits, edit.Encodable

theorem holdsEdits_empty : HoldsEdits {} [] := ⟨LogFile.holds_empty, by simp⟩

namespace HoldsEdits

variable {m m' : LogFile} {edits : List VersionEdit}

theorem offset (h : HoldsEdits m edits) : m.blockOffset ≤ blockSize := h.holds.offset

private theorem applyRecords_encode (st : RecoverState) (h : ∀ edit ∈ edits, edit.Encodable) :
    applyRecords RecoverState.replayRecord st (edits.map VersionEdit.encode) =
      (.ok (), edits.foldl RecoverState.apply st) := by
  induction edits generalizing st with
  | nil => rfl
  | cons edit edits ih =>
    rw [forall_mem_cons] at h
    rw [map_cons, applyRecords, replayRecord_encode st h.1, Outcome.andThen_ok, ih _ h.2]
    rfl

theorem reads (h : HoldsEdits m edits) (st : RecoverState) (tail : Bytes) :
    resume RecoverState.replayRecord st 0 (m.file.accepted ++ tail) =
      resume RecoverState.replayRecord (edits.foldl RecoverState.apply st) m.blockOffset tail := by
  rw [h.holds.reads, applyRecords_encode st h.encodable, Outcome.andThen_ok]

theorem appended (h : HoldsEdits m edits) (hfits : edit.Encodable) :
    HoldsEdits (m.appended edit.encode) (edits ++ [edit]) := by
  refine ⟨by simpa using h.holds.appended edit.encode, fun e he => ?_⟩
  rcases mem_append.mp he with he | he
  · exact h.encodable e he
  · exact mem_singleton.mp he ▸ hfits

theorem of_cleanFault (h : HoldsEdits m edits) (hflushed : m'.file.flushed = m.file.flushed)
    (hrest : m'.blockOffset = m.blockOffset ∧ m'.file.buffer = m.file.buffer ∨
      m'.blockOffset = startOffset m.blockOffset ∧
        m'.file.buffer = m.file.buffer ++ padding m.blockOffset) :
    HoldsEdits m' edits :=
  ⟨h.holds.of_cleanFault hflushed hrest, h.encodable⟩

end HoldsEdits

/-- The open manifest is the one that `CURRENT` names, and it holds the edits. -/
structure Logged (s : MetaState) (m : LogFile) (edits : List VersionEdit) : Prop
    extends HoldsEdits m edits where
  manifest : s.vs.manifest = some m
  disk : s.dir.manifests s.vs.manifestFileNumber = some m.file.flushed
  current : s.dir.current = some s.vs.manifestFileNumber

/-! ### Calls -/

namespace MetaState

@[simp] theorem manifest_setCompactPointers (vs : VersionSet) (pointers : List CompactPointer) :
    (vs.setCompactPointers pointers).manifest = vs.manifest := rfl

/-- The version that a call makes. -/
def nextVersion (s : MetaState) (c : Comparator) (edit : VersionEdit) : Version :=
  (VersionBuilder.apply { base := s.vs.current } (s.vs.stash edit)).saveTo c

/-- What a successful call leaves in the version set. -/
structure Installed (c : Comparator) (s : MetaState) (edit : VersionEdit) (s' : MetaState) :
    Prop where
  current : s'.vs.current = s.nextVersion c edit
  logNumber : s'.vs.logNumber = edit.logNumber.getD s.vs.logNumber
  prevLogNumber : s'.vs.prevLogNumber = edit.prevLogNumber.getD s.vs.prevLogNumber
  lastSequence : s'.vs.lastSequence = s.vs.lastSequence

theorem logAndApply_of_open {s : MetaState} {m : LogFile} (c : Comparator) (io : CallIo)
    (edit : VersionEdit) (h : s.vs.manifest = some m) :
    s.logAndApply c io edit =
      logToOpenManifest { s with vs := s.vs.setCompactPointers edit.compactPointers } io m
        (s.vs.stash edit) (s.nextVersion c edit) := by
  simp only [logAndApply, manifest_setCompactPointers, h]
  rfl

/-- The three ends of a call on the open manifest. -/
theorem logToOpenManifest_cases (s : MetaState) (io : CallIo) (m : LogFile) (edit : VersionEdit)
    (newVersion : Version) :
    (∃ e m₁, appendToManifest m io.append edit = (.error e, m₁) ∧
      s.logToOpenManifest io m edit newVersion = (.error e, s.storeManifest m₁)) ∨
    (∃ e, (syncManifest (m.appended edit.encode) io.sync).1 = .error e ∧
      s.logToOpenManifest io m edit newVersion =
        (.error e, s.storeManifest (m.appended edit.encode))) ∨
    ∃ s', s' = s.storeManifest (m.appended edit.encode) ∧
      s.logToOpenManifest io m edit newVersion =
        (.ok (), { s' with vs := s'.vs.install edit newVersion }) := by
  rcases happ : appendToManifest m io.append edit with ⟨e | ⟨⟩, m₁⟩
  · exact .inl ⟨e, m₁, rfl, by simp only [logToOpenManifest, happ]⟩
  · obtain rfl := appendToManifest_ok happ
    rcases hsync : syncManifest (m.appended edit.encode) io.sync with ⟨e | ⟨⟩, m₂⟩
    · obtain rfl : m₂ = m.appended edit.encode := by
        rw [← syncManifest_appended m edit.encode io.sync, hsync]
      exact .inr (.inl ⟨e, rfl, by simp only [logToOpenManifest, happ, hsync]⟩)
    · obtain rfl : m₂ = m.appended edit.encode := by
        rw [← syncManifest_appended m edit.encode io.sync, hsync]
      exact .inr (.inr ⟨_, rfl, by simp only [logToOpenManifest, happ, hsync]⟩)

variable {s s' : MetaState} {m : LogFile} {edits : List VersionEdit} {c : Comparator} {io : CallIo}
  {edit : VersionEdit}

/-- Storing a log that holds the edits keeps the directory consistent. -/
theorem Logged.storeManifest {m' : LogFile} {edits' : List VersionEdit} (h : Logged s m edits)
    (h' : HoldsEdits m' edits')
    (hdir : s'.dir = s.dir.write s.vs.manifestFileNumber m'.file.flushed)
    (hman : s'.vs.manifest = some m') (hnum : s'.vs.manifestFileNumber = s.vs.manifestFileNumber) :
    Logged s' m' edits' := by
  refine ⟨h', hman, ?_, ?_⟩
  · simp [hdir, hnum, Directory.write]
  · rw [hdir, hnum]
    exact h.current

/-- **A call that succeeds on the open manifest** has logged its edit and installed its version. -/
theorem logAndApply_ok (h : Logged s m edits) (hfits : (s.vs.stash edit).Encodable)
    (hok : s.logAndApply c io edit = (.ok (), s')) :
    Logged s' (m.appended (s.vs.stash edit).encode) (edits ++ [s.vs.stash edit]) ∧
      Installed c s edit s' := by
  rw [logAndApply_of_open c io edit h.manifest] at hok
  obtain ⟨e, m₁, -, heq⟩ | ⟨e, -, heq⟩ | ⟨t, rfl, heq⟩ := logToOpenManifest_cases
    { s with vs := s.vs.setCompactPointers edit.compactPointers } io m (s.vs.stash edit)
    (s.nextVersion c edit)
  · simp [heq] at hok
  · simp [heq] at hok
  · rw [heq] at hok
    obtain rfl := (Prod.mk.inj hok).2
    exact ⟨Logged.storeManifest h (h.toHoldsEdits.appended hfits) rfl rfl rfl, rfl, rfl, rfl, rfl⟩

/-- **A call that fails on the open manifest.** Either its edit is not in the manifest and the
version did not change; or its record is there, the sync having failed. -/
theorem logAndApply_error {e : Status} (h : Logged s m edits) (hfits : (s.vs.stash edit).Encodable)
    (hclean : ∀ fault ∈ io.append, LogFile.CleanFault m.blockOffset fault)
    (herr : s.logAndApply c io edit = (.error e, s')) :
    s'.vs.current = s.vs.current ∧ s'.vs.logNumber = s.vs.logNumber ∧
      s'.vs.prevLogNumber = s.vs.prevLogNumber ∧
      ((∃ m', Logged s' m' edits) ∨
        ∃ m', io.sync ≠ none ∧ Logged s' m' (edits ++ [s.vs.stash edit])) := by
  rw [logAndApply_of_open c io edit h.manifest] at herr
  obtain ⟨e', m₁, happ, heq⟩ | ⟨e', hsync, heq⟩ | ⟨t, rfl, heq⟩ := logToOpenManifest_cases
    { s with vs := s.vs.setCompactPointers edit.compactPointers } io m (s.vs.stash edit)
    (s.nextVersion c edit)
  · rw [heq] at herr
    obtain rfl := (Prod.mk.inj herr).2
    rcases hio : io.append with _ | fault
    · rw [hio, appendToManifest_none] at happ
      simp at happ
    · obtain ⟨e₂, m₂, happ', hflushed, hrest⟩ :=
        LogFile.addRecordUnder_of_cleanFault (hclean fault hio)
      rw [hio, appendToManifest, happ'] at happ
      obtain rfl := (Prod.mk.inj happ).2
      exact ⟨rfl, rfl, rfl, .inl ⟨m₂, Logged.storeManifest h
        (h.toHoldsEdits.of_cleanFault hflushed hrest) rfl rfl rfl⟩⟩
  · rw [heq] at herr
    obtain rfl := (Prod.mk.inj herr).2
    refine ⟨rfl, rfl, rfl, .inr ⟨_, ?_, Logged.storeManifest h (h.toHoldsEdits.appended hfits)
      rfl rfl rfl⟩⟩
    rintro hnone
    rw [hnone] at hsync
    simp [syncManifest, LogFile.syncUnder_none] at hsync
  · simp [heq] at herr

theorem logToNewManifest_ok {newVersion : Version}
    (h : s.logToNewManifest c io edit newVersion = (.ok (), s')) :
    ∃ t, t = (s.storeManifest ((LogFile.appended {} (s.vs.snapshotEdit c).encode).appended
        edit.encode)).setCurrentFile ∧ s' = { t with vs := t.vs.install edit newVersion } := by
  unfold logToNewManifest at h
  by_cases hc : io.create
  · rcases hm : appendToManifest {} io.snapshot (s.vs.snapshotEdit c) with ⟨e | ⟨⟩, m⟩
    · simp [hc, hm] at h
    obtain rfl := appendToManifest_ok hm
    rcases hm₁ : appendToManifest (LogFile.appended {} (s.vs.snapshotEdit c).encode) io.append edit
      with ⟨e | ⟨⟩, m₁⟩
    · simp [hc, hm, hm₁] at h
    obtain rfl := appendToManifest_ok hm₁
    have hm₂ := syncManifest_appended (LogFile.appended {} (s.vs.snapshotEdit c).encode) edit.encode
      io.sync
    rcases hsync : syncManifest ((LogFile.appended {} (s.vs.snapshotEdit c).encode).appended
      edit.encode) io.sync with ⟨e | ⟨⟩, m₂⟩
    · simp [hc, hm, hm₁, hsync] at h
    rw [hsync] at hm₂
    simp only at hm₂
    subst hm₂
    by_cases hset : io.setCurrent
    · simp only [hc, hm, hm₁, hsync, hset, if_true, Prod.mk.injEq, true_and] at h
      exact ⟨_, rfl, h.symm⟩
    · simp [hc, hm, hm₁, hsync, hset] at h
  · simp [hc] at h

/-- The version set that writes the snapshot record of a new manifest. -/
def beforeSnapshot (s : MetaState) (edit : VersionEdit) : MetaState :=
  startManifest { s with vs := s.vs.setCompactPointers edit.compactPointers }

/-- **A call that starts a manifest** has logged the version before it and its edit. -/
theorem logAndApply_new_ok
    (h : s.vs.manifest = none) (hsnap : ((s.beforeSnapshot edit).vs.snapshotEdit c).Encodable)
    (hfits : (s.vs.stash edit).Encodable) (hok : s.logAndApply c io edit = (.ok (), s')) :
    Logged s'
        ((LogFile.appended {} ((s.beforeSnapshot edit).vs.snapshotEdit c).encode).appended
          (s.vs.stash edit).encode)
        [(s.beforeSnapshot edit).vs.snapshotEdit c, s.vs.stash edit] ∧
      Installed c s edit s' := by
  have heq : s.logAndApply c io edit = (s.beforeSnapshot edit).logToNewManifest c io
      (s.vs.stash edit) (s.nextVersion c edit) := by
    simp only [logAndApply, manifest_setCompactPointers, h]
    rfl
  rw [heq] at hok
  obtain ⟨t, rfl, rfl⟩ := logToNewManifest_ok hok
  refine ⟨⟨(holdsEdits_empty.appended hsnap).appended hfits, rfl, ?_, rfl⟩, rfl, rfl, rfl, rfl⟩
  exact Function.update_self _ _ _

/-- **A call without failures** succeeds; the first one on a manifest takes a number for it. -/
theorem logAndApply_of_no_fault (s : MetaState) (c : Comparator) (edit : VersionEdit) :
    ∃ s', s.logAndApply c {} edit = (.ok (), s') ∧ Installed c s edit s' ∧
      s'.vs.nextFileNumber = s.vs.nextFileNumber + (if s.vs.manifest.isSome then 0 else 1) ∧
      s'.vs.manifest.isSome := by
  have hsync : ∀ (m : LogFile) (data : Bytes),
      syncManifest (m.appended data) none = (.ok (), m.appended data) :=
    fun m data => Prod.ext rfl (syncManifest_appended m data none)
  rcases h : s.vs.manifest with _ | m
  · have heq : s.logAndApply c {} edit = (s.beforeSnapshot edit).logToNewManifest c {}
        (s.vs.stash edit) (s.nextVersion c edit) := by
      simp only [logAndApply, manifest_setCompactPointers, h]
      rfl
    rw [heq]
    simp only [logToNewManifest, appendToManifest_none, hsync, if_true]
    exact ⟨_, rfl, ⟨rfl, rfl, rfl, rfl⟩, rfl, rfl⟩
  · rw [logAndApply_of_open c {} edit h]
    simp only [logToOpenManifest, appendToManifest_none, hsync]
    exact ⟨_, rfl, ⟨rfl, rfl, rfl, rfl⟩, rfl, rfl⟩

end MetaState

/-! ### The version of the edits -/

theorem replayed_concat (edits : List VersionEdit) (edit : VersionEdit) :
    replayed (edits ++ [edit]) = (replayed edits).apply edit := foldl_concat ..

theorem files_base_replayed (edits : List VersionEdit) (level : ℕ) :
    (replayed edits).base.files level = [] := by
  induction edits using List.reverseRecOn with
  | nil => rfl
  | append_singleton edits edit ih => rw [replayed_concat, VersionBuilder.base_apply, ih]

theorem addedFiles_replayed (edits : List VersionEdit) (level : ℕ) :
    (replayed edits).addedFiles level = edits.flatMap (·.addedAt level) := by
  induction edits using List.reverseRecOn with
  | nil => rfl
  | append_singleton edits edit ih =>
    rw [replayed_concat, VersionBuilder.addedFiles_apply, ih, flatMap_append, flatMap_singleton]

/-- The version in memory is the one that comes from the edits. -/
def Mirrors (c : Comparator) (v : Version) (edits : List VersionEdit) : Prop :=
  ∀ level, v.files level = ((replayed edits).saveTo c).files level

/-- An edit adds no file, at a level, that one of the edits has added there. -/
def AddsFresh (edits : List VersionEdit) (edit : VersionEdit) : Prop :=
  ∀ level, ∀ f ∈ edits.flatMap (·.addedAt level), ∀ g ∈ edit.addedAt level, f.number ≠ g.number

theorem Mirrors.nextVersion {s : MetaState} (h : Mirrors c s.vs.current edits)
    (hfresh : AddsFresh edits edit) :
    Mirrors c (s.nextVersion c edit) (edits ++ [s.vs.stash edit]) := by
  intro level
  rw [replayed_concat]
  refine VersionBuilder.files_saveTo_apply (files_base_replayed edits) h (fun level f hf => ?_)
    level
  rw [addedFiles_replayed] at hf
  exact hfresh level f hf

/-- An edit that adds and deletes no files does not change the version. -/
theorem Mirrors.of_no_files {v : Version} (h : Mirrors c v edits) (hadd : edit.newFiles = [])
    (hdelete : edit.deletedFiles = []) : Mirrors c v (edits ++ [edit]) := by
  have hsame : (replayed edits).apply edit = replayed edits := by
    rw [VersionBuilder.apply, hadd, hdelete]
    rfl
  intro level
  rw [replayed_concat, hsame, h level]

/-! ### Starting a manifest -/

/-- The levels are sorted as `save_to` sorts them. -/
def SortedVersion (c : Comparator) (v : Version) : Prop :=
  ∀ level, v.files level =
    if level < numLevels then (v.files level).insertionSort (FileOrder c level) else []

theorem sortedVersion_saveTo (c : Comparator) (b : VersionBuilder) :
    SortedVersion c (b.saveTo c) := by
  intro level
  rw [VersionBuilder.files_saveTo]
  split_ifs
  · have h := StableSort.insertionSort_insertionSort_append (FileOrder c level) (b.kept level) []
    rw [append_nil, append_nil] at h
    exact h.symm
  · rfl

theorem sortedVersion_empty (c : Comparator) : SortedVersion c {} := by
  intro level
  split_ifs <;> rfl

private theorem flatMap_range_eq {α : Type} (f : ℕ → List α) (n level : ℕ) :
    (List.range n).flatMap (fun l => if l = level then f l else []) =
      if level < n then f level else [] := by
  induction n with
  | zero => simp
  | succ n ih =>
    rw [range_succ, flatMap_append, ih, flatMap_singleton]
    rcases lt_trichotomy level n with h | rfl | h
    · rw [if_pos h, if_neg h.ne', if_pos (by omega), append_nil]
    · rw [if_neg (lt_irrefl _), if_pos rfl, if_pos (by omega), nil_append]
    · rw [if_neg (by omega), if_neg h.ne, if_neg (by omega), nil_append]

theorem addedAt_snapshotEdit (vs : VersionSet) (c : Comparator) (level : ℕ) :
    (vs.snapshotEdit c).addedAt level =
      if level < numLevels then vs.current.files level else [] := by
  rw [← flatMap_range_eq]
  simp only [VersionEdit.addedAt, VersionSet.snapshotEdit, filter_flatMap, map_flatMap]
  congr 1
  funext l
  split_ifs with h
  · simp [h, filter_map, Function.comp_def]
  · simp [h, filter_map, Function.comp_def]

theorem mirrors_snapshotEdit {vs : VersionSet} (h : SortedVersion c vs.current) :
    Mirrors c vs.current [vs.snapshotEdit c] := by
  intro level
  have hadd : (replayed [vs.snapshotEdit c]).addedFiles level =
      if level < numLevels then vs.current.files level else [] := by
    rw [addedFiles_replayed, flatMap_singleton, addedAt_snapshotEdit]
  have hdel : ∀ n, n ∉ (replayed [vs.snapshotEdit c]).deletedFiles level := by
    intro n hn
    have hmem := (VersionBuilder.mem_deletedFiles_apply { base := {} } _ level n).mp hn
    simp [VersionEdit.DeletesAt, VersionSet.snapshotEdit] at hmem
  rw [VersionBuilder.files_saveTo, VersionBuilder.kept, files_base_replayed, hadd, h level]
  split_ifs with hlev
  · simp only [hdel, not_false_eq_true, decide_true, filter_true, nil_append, filter_nil]
    have h' := StableSort.insertionSort_insertionSort_append (FileOrder c level)
      (vs.current.files level) []
    rw [append_nil, append_nil] at h'
    exact h'.symm
  · rfl

/-! ### Recovery -/

/-- Recovery of a directory whose manifest starts with a log that holds the edits. -/
theorem recover_eq {dir : Directory} {number : ℕ} {tail : Bytes} (h : HoldsEdits m edits)
    (hcur : dir.current = some number)
    (hbytes : dir.manifests number = some (m.file.accepted ++ tail)) :
    VersionSet.recover c dir =
      match resume RecoverState.replayRecord
        (edits.foldl RecoverState.apply { vs := {}, builder := { base := {} } })
        m.blockOffset tail with
      | (.error e, _) => .error e
      | (.ok _, st) => st.finish c := by
  rcases hres : resume RecoverState.replayRecord
      (edits.foldl RecoverState.apply { vs := {}, builder := { base := {} } })
      m.blockOffset tail with ⟨e | _, st⟩ <;>
    simp only [VersionSet.recover, hcur, hbytes, replay_eq_resume, h.reads, hres]

/-- Recovery of a manifest with one record. -/
theorem recover_of_record {dir : Directory} {number : ℕ} (h : edit.Encodable)
    (hcur : dir.current = some number)
    (hbytes : dir.manifests number = some (LogFile.appended {} edit.encode).file.flushed) :
    VersionSet.recover c dir =
      (RecoverState.apply { vs := {}, builder := { base := {} } } edit).finish c := by
  have hholds := holdsEdits_empty.appended h
  have hacc : dir.manifests number =
      some ((LogFile.appended {} edit.encode).file.accepted ++ []) := by
    rw [hbytes, append_nil, WritableFile.accepted]
    exact congrArg some (append_nil _).symm
  rw [recover_eq hholds hcur hacc, resume_nil _ _ hholds.offset]
  rfl

/-- Recovery of a manifest that has passed on all of its bytes. -/
theorem Logged.recover {s : MetaState} (h : Logged s m edits) (hbuf : m.file.buffer = [])
    (c : Comparator) :
    VersionSet.recover c s.dir =
      (edits.foldl RecoverState.apply { vs := {}, builder := { base := {} } }).finish c := by
  have hflushed : m.file.flushed = m.file.accepted ++ [] := by
    rw [WritableFile.accepted, hbuf, append_nil, append_nil]
  rw [recover_eq h.toHoldsEdits h.current (hflushed ▸ h.disk), resume_nil _ _ h.offset]

private theorem builder_foldl_apply (st : RecoverState) (edits : List VersionEdit) :
    (edits.foldl RecoverState.apply st).builder = edits.foldl VersionBuilder.apply st.builder := by
  induction edits generalizing st with
  | nil => rfl
  | cons edit edits ih => exact ih (st.apply edit)

/-- The loop of `recover` ends with the numbers of the last edit and the files of all of them. -/
theorem finish_foldl_apply (c : Comparator) (edits : List VersionEdit) {edit : VersionEdit}
    (hnext : edit.nextFileNumber.isSome) (hlast : edit.lastSequence.isSome) :
    ∃ vs, RecoverState.finish ((edits ++ [edit]).foldl RecoverState.apply
        { vs := {}, builder := { base := {} } }) c = .ok vs ∧
      vs.current = (replayed (edits ++ [edit])).saveTo c ∧
      (∀ n ∈ edit.logNumber, vs.logNumber = n) ∧
      (∀ n ∈ edit.lastSequence, vs.lastSequence = n) ∧
      (∀ n ∈ edit.prevLogNumber, vs.prevLogNumber = n) ∧
      (∀ n ∈ edit.nextFileNumber, vs.nextFileNumber = n) := by
  have hbuilder := builder_foldl_apply { vs := {}, builder := { base := {} } } (edits ++ [edit])
  rw [foldl_concat] at hbuilder ⊢
  refine ⟨_, if_pos ?_, congrArg (VersionBuilder.saveTo · c) hbuilder, ?_, ?_, ?_, ?_⟩
  · simp [RecoverState.apply, hnext, hlast]
  all_goals
    intro n hn
    simp [RecoverState.apply, Option.mem_def.mp hn]

end PulsearcDb
