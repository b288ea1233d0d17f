import PulsearcDb.Foundation.Runs
import PulsearcDb.VersionSet.ManifestReplay

/-!
# Crashes and failures in the manifest

Runs of `log_and_apply` calls on one manifest, started by a version set that was just created or
recovered.

* A crash in the middle of the record of the last call leaves a prefix of the record. `recover`
  takes a prefix without a complete header for the end of the log, and reports an error for any
  longer one.
* A failed call on the open manifest keeps writing to it. As long as no failed append leaves a byte
  of its record, and no sync fails behind an edit that changes the files, the manifest and the
  memory agree after every call that succeeds.
-/

namespace PulsearcDb

open Log List

/-- A call of `log_and_apply`, with what the other methods have left in the version set before it
and the fate of its file operations. -/
structure Call where
  lastSequence : ℕ
  nextFileNumber : ℕ
  compactPointer : ℕ → Bytes := fun _ => []
  io : CallIo := {}
  edit : VersionEdit

/-- The (level, number) pairs of the files that an edit adds. -/
def VersionEdit.pairs (e : VersionEdit) : List (ℕ × ℕ) :=
  e.newFiles.map fun nf => (nf.level, nf.file.number)

namespace VersionSet

/-- The (level, number) pairs of the current version. -/
def pairs (vs : VersionSet) : List (ℕ × ℕ) :=
  (List.range numLevels).flatMap fun level => (vs.current.files level).map fun f =>
    (level, f.number)

/-- A version set that has no manifest yet: newly created, or recovered. -/
inductive Fresh (c : Comparator) : VersionSet → Prop
  | new : Fresh c {}
  | recovered {dir : Directory} {vs : VersionSet} : recover c dir = .ok vs → Fresh c vs

/-- The numbers of a version set are 64-bit integers and its strings have 32-bit lengths. -/
structure Fits (c : Comparator) (vs : VersionSet) : Prop where
  name : c.name.toUTF8.toList.length < 2 ^ 32
  logNumber : vs.logNumber < 2 ^ 64
  prevLogNumber : vs.prevLogNumber < 2 ^ 64
  files : ∀ level, ∀ f ∈ vs.current.files level, f.Encodable

end VersionSet

/-- The numbers of a call are 64-bit integers and its strings have 32-bit lengths. -/
structure Call.Fits (call : Call) : Prop where
  lastSequence : call.lastSequence < 2 ^ 64
  nextFileNumber : call.nextFileNumber + 1 < 2 ^ 64
  compactPointer : ∀ level, (call.compactPointer level).length < 2 ^ 32
  edit : call.edit.Encodable

namespace MetaState

/-- The counters are set before the call. -/
def prepare (s : MetaState) (call : Call) : MetaState :=
  { s with vs := { s.vs with
      lastSequence := call.lastSequence
      nextFileNumber := call.nextFileNumber
      compactPointer := call.compactPointer } }

/-- One call of `log_and_apply`. -/
def perform (s : MetaState) (c : Comparator) (call : Call) : Outcome MetaState :=
  (s.prepare call).logAndApply c call.io call.edit

/-- The bytes on disk of the manifest of the version set. -/
def manifestBytes (s : MetaState) : Bytes :=
  (s.dir.manifests s.vs.manifestFileNumber).getD []

/-- The block offset of the writer of the manifest. -/
def manifestOffset (s : MetaState) : ℕ := (s.vs.manifest.map (·.blockOffset)).getD 0

end MetaState

/-! ### The invariant of a run -/

variable {vs : VersionSet} {c : Comparator} {edit : VersionEdit}

theorem VersionSet.encodable_stash (hedit : edit.Encodable) (hlog : vs.logNumber < 2 ^ 64)
    (hprev : vs.prevLogNumber < 2 ^ 64) (hseq : vs.lastSequence < 2 ^ 64)
    (hnext : vs.nextFileNumber < 2 ^ 64) :
    (vs.stash edit).Encodable where
  comparator := hedit.comparator
  logNumber n hn := by
    obtain rfl := Option.mem_some_iff.mp hn
    rcases h : edit.logNumber with _ | n
    · exact hlog
    · exact hedit.logNumber n h
  prevLogNumber n hn := by
    obtain rfl := Option.mem_some_iff.mp hn
    rcases h : edit.prevLogNumber with _ | n
    · exact hprev
    · exact hedit.prevLogNumber n h
  nextFileNumber n hn := by
    obtain rfl := Option.mem_some_iff.mp hn
    exact hnext
  lastSequence n hn := by
    obtain rfl := Option.mem_some_iff.mp hn
    exact hseq
  compactPointers := hedit.compactPointers
  deletedFiles := hedit.deletedFiles
  newFiles := hedit.newFiles

theorem length_setCompactPointers {pointers : List CompactPointer}
    (hvs : ∀ level, (vs.compactPointer level).length < 2 ^ 32)
    (hpointers : ∀ p ∈ pointers, p.key.length < 2 ^ 32) (level : ℕ) :
    ((vs.setCompactPointers pointers).compactPointer level).length < 2 ^ 32 := by
  induction pointers generalizing vs with
  | nil => exact hvs level
  | cons p pointers ih =>
    refine @ih { vs with compactPointer := Function.update vs.compactPointer p.level p.key }
      (fun l => ?_) fun q hq => hpointers q (mem_cons_of_mem p hq)
    by_cases hl : l = p.level
    · subst hl
      simpa using hpointers p mem_cons_self
    · simpa [Function.update_of_ne hl] using hvs l

theorem VersionSet.encodable_snapshotEdit (h : vs.Fits c) (hseq : vs.lastSequence < 2 ^ 64)
    (hnext : vs.nextFileNumber < 2 ^ 64)
    (hptr : ∀ level, (vs.compactPointer level).length < 2 ^ 32) :
    (vs.snapshotEdit c).Encodable where
  comparator name hname := by
    obtain rfl := Option.mem_some_iff.mp hname
    exact h.name
  logNumber n hn := by
    obtain rfl := Option.mem_some_iff.mp hn
    exact h.logNumber
  prevLogNumber n hn := by
    obtain rfl := Option.mem_some_iff.mp hn
    exact h.prevLogNumber
  nextFileNumber n hn := by
    obtain rfl := Option.mem_some_iff.mp hn
    exact hnext
  lastSequence n hn := by
    obtain rfl := Option.mem_some_iff.mp hn
    exact hseq
  compactPointers p hp := by
    simp only [snapshotEdit, mem_filterMap, mem_range, Option.ite_none_left_eq_some,
      Option.some.injEq] at hp
    obtain ⟨level, hlev, -, rfl⟩ := hp
    exact ⟨hlev, hptr level⟩
  deletedFiles d hd := by simp [snapshotEdit] at hd
  newFiles nf hnf := by
    simp only [snapshotEdit, mem_flatMap, mem_range, mem_map] at hnf
    obtain ⟨level, hlev, f, hf, rfl⟩ := hnf
    exact ⟨hlev, h.files level f hf⟩

theorem exists_builder_of_recover {dir : Directory} (h : VersionSet.recover c dir = .ok vs) :
    vs.manifest = none ∧ ∃ b : VersionBuilder, vs.current = b.saveTo c := by
  unfold VersionSet.recover at h
  split at h
  · simp at h
  split at h
  · simp at h
  split at h
  · simp at h
  rename_i st _
  unfold RecoverState.finish at h
  split_ifs at h
  obtain rfl := Except.ok.inj h
  exact ⟨rfl, st.builder, rfl⟩

theorem VersionSet.Fresh.manifest_eq_none (h : vs.Fresh c) : vs.manifest = none := by
  cases h with
  | new => rfl
  | recovered h => exact (exists_builder_of_recover h).1

theorem VersionSet.Fresh.sorted (h : vs.Fresh c) : SortedVersion c vs.current := by
  cases h with
  | new => exact sortedVersion_empty c
  | recovered h =>
    obtain ⟨b, hb⟩ := (exists_builder_of_recover h).2
    rw [hb]
    exact sortedVersion_saveTo c b

/-- The manifest holds what the version in memory was made of. -/
structure Consistent (c : Comparator) (s : MetaState) (m : LogFile) (edits : List VersionEdit)
    (added : List (ℕ × ℕ)) : Prop extends Logged s m edits where
  mirrors : Mirrors c s.vs.current edits
  logNumber : s.vs.logNumber < 2 ^ 64
  prevLogNumber : s.vs.prevLogNumber < 2 ^ 64
  added : ∀ e ∈ edits, ∀ p ∈ e.pairs, p ∈ added

/-- After a successful call the last edit holds the numbers in memory and all is flushed. -/
structure Recorded (c : Comparator) (s : MetaState) (m : LogFile) (edits : List VersionEdit)
    (added : List (ℕ × ℕ)) : Prop extends Consistent c s m edits added where
  buffer : m.file.buffer = []
  last : ∃ es e, edits = es ++ [e] ∧ e.nextFileNumber.isSome ∧
    e.logNumber = some s.vs.logNumber ∧ e.lastSequence = some s.vs.lastSequence

theorem VersionEdit.mem_pairs_of_mem_addedAt {e : VersionEdit} {level : ℕ} {f : FileMetaData}
    (h : f ∈ e.addedAt level) : (level, f.number) ∈ e.pairs := by
  simp only [addedAt, mem_map, mem_filter, decide_eq_true_eq] at h
  obtain ⟨nf, ⟨hnf, rfl⟩, rfl⟩ := h
  exact mem_map_of_mem hnf

theorem VersionSet.pairs_snapshotEdit (vs : VersionSet) (c : Comparator) :
    (vs.snapshotEdit c).pairs = vs.pairs := by
  simp only [VersionEdit.pairs, VersionSet.snapshotEdit, VersionSet.pairs, map_flatMap,
    map_map, Function.comp_def]

/-- A call whose edit adds none of the pairs added before adds fresh files. -/
theorem addsFresh_of_pairs {edits : List VersionEdit} {added : List (ℕ × ℕ)}
    (h : ∀ e ∈ edits, ∀ p ∈ e.pairs, p ∈ added) (hnew : ∀ p ∈ edit.pairs, p ∉ added) :
    AddsFresh edits edit := by
  intro level f hf g hg heq
  obtain ⟨e, he, hfe⟩ := mem_flatMap.mp hf
  refine hnew (level, g.number) (VersionEdit.mem_pairs_of_mem_addedAt hg) ?_
  rw [← heq]
  exact h e he _ (VersionEdit.mem_pairs_of_mem_addedAt hfe)

private theorem pairs_mem_concat {edits : List VersionEdit} {added : List (ℕ × ℕ)}
    (h : ∀ e ∈ edits, ∀ p ∈ e.pairs, p ∈ added) :
    ∀ e ∈ edits ++ [edit], ∀ p ∈ e.pairs, p ∈ added ++ edit.pairs := by
  intro e he p hp
  rcases mem_append.mp he with he | he
  · exact mem_append_left _ (h e he p hp)
  · obtain rfl := mem_singleton.mp he
    exact mem_append_right _ hp

theorem getD_lt {o : Option ℕ} {n bound : ℕ} (ho : ∀ k ∈ o, k < bound) (hn : n < bound) :
    o.getD n < bound := by
  cases o with
  | none => exact hn
  | some k => exact ho k rfl

variable {c : Comparator} {s s' : MetaState} {m : LogFile} {edits : List VersionEdit}
  {added : List (ℕ × ℕ)} {call : Call}

theorem Call.Fits.encodable_stash (hfits : call.Fits) (hlog : s.vs.logNumber < 2 ^ 64)
    (hprev : s.vs.prevLogNumber < 2 ^ 64) : ((s.prepare call).vs.stash call.edit).Encodable :=
  VersionSet.encodable_stash hfits.edit hlog hprev hfits.lastSequence
    (Nat.lt_of_succ_lt hfits.nextFileNumber)

theorem Call.Fits.encodable_snapshotEdit (hfits : call.Fits) (hvs : s.vs.Fits c) :
    (((s.prepare call).beforeSnapshot call.edit).vs.snapshotEdit c).Encodable :=
  VersionSet.encodable_snapshotEdit ⟨hvs.name, hvs.logNumber, hvs.prevLogNumber, hvs.files⟩
    hfits.lastSequence hfits.nextFileNumber
    (length_setCompactPointers hfits.compactPointer fun p hp => (hfits.edit.compactPointers p hp).2)

theorem Logged.prepare (h : Logged s m edits) (call : Call) : Logged (s.prepare call) m edits :=
  ⟨h.toHoldsEdits, h.manifest, h.disk, h.current⟩

namespace MetaState

/-- **A successful call on the open manifest.** -/
theorem perform_ok (h : Consistent c s m edits added) (hfits : call.Fits)
    (hnew : ∀ p ∈ call.edit.pairs, p ∉ added) (hok : s.perform c call = (.ok (), s')) :
    Recorded c s' (m.appended ((s.prepare call).vs.stash call.edit).encode)
      (edits ++ [(s.prepare call).vs.stash call.edit]) (added ++ call.edit.pairs) := by
  obtain ⟨hlogged', hinst⟩ := logAndApply_ok (h.toLogged.prepare call)
    (hfits.encodable_stash h.logNumber h.prevLogNumber) hok
  refine ⟨⟨hlogged', ?_, ?_, ?_, ?_⟩, rfl, _, _, rfl, rfl, ?_, ?_⟩
  · rw [hinst.current]
    exact Mirrors.nextVersion (s := s.prepare call) h.mirrors (addsFresh_of_pairs h.added hnew)
  · rw [hinst.logNumber]
    exact getD_lt hfits.edit.logNumber h.logNumber
  · rw [hinst.prevLogNumber]
    exact getD_lt hfits.edit.prevLogNumber h.prevLogNumber
  · exact pairs_mem_concat h.added
  · rw [hinst.logNumber]
    rfl
  · rw [hinst.lastSequence]
    rfl

/-- **A call that starts a manifest.** -/
theorem perform_new_ok (hfresh : s.vs.Fresh c) (hvs : s.vs.Fits c) (hfits : call.Fits)
    (hnew : ∀ p ∈ call.edit.pairs, p ∉ s.vs.pairs) (hok : s.perform c call = (.ok (), s')) :
    ∃ m snapshot, Recorded c s' m [snapshot, (s.prepare call).vs.stash call.edit]
      (s.vs.pairs ++ call.edit.pairs) := by
  obtain ⟨hlogged', hinst⟩ := logAndApply_new_ok (s := s.prepare call) hfresh.manifest_eq_none
    (hfits.encodable_snapshotEdit hvs) (hfits.encodable_stash hvs.logNumber hvs.prevLogNumber) hok
  have hpairs : ∀ e ∈ [((s.prepare call).beforeSnapshot call.edit).vs.snapshotEdit c],
      ∀ p ∈ e.pairs, p ∈ s.vs.pairs := by
    intro e he p hp
    rw [mem_singleton.mp he, VersionSet.pairs_snapshotEdit] at hp
    exact hp
  have hmirrors : Mirrors c (s.prepare call).vs.current
      [((s.prepare call).beforeSnapshot call.edit).vs.snapshotEdit c] :=
    @mirrors_snapshotEdit c ((s.prepare call).beforeSnapshot call.edit).vs hfresh.sorted
  refine ⟨_, _, ⟨⟨hlogged', ?_, ?_, ?_, ?_⟩, rfl, [_], _, rfl, rfl, ?_, ?_⟩⟩
  · rw [hinst.current]
    exact hmirrors.nextVersion (addsFresh_of_pairs hpairs hnew)
  · rw [hinst.logNumber]
    exact getD_lt hfits.edit.logNumber hvs.logNumber
  · rw [hinst.prevLogNumber]
    exact getD_lt hfits.edit.prevLogNumber hvs.prevLogNumber
  · exact pairs_mem_concat hpairs
  · rw [hinst.logNumber]
    rfl
  · rw [hinst.lastSequence]
    rfl

/-- The failures after which the manifest still agrees with the memory: an append that fails leaves
no byte of the record, and a sync fails only behind an edit that does not change the files. -/
def CleanCall (s : MetaState) (call : Call) : Prop :=
  (∀ fault ∈ call.io.append, LogFile.CleanFault s.manifestOffset fault) ∧
    (call.io.sync ≠ none → call.edit.newFiles = [] ∧ call.edit.deletedFiles = [])

/-- **A failed call on the open manifest.** -/
theorem perform_error {e : Status} (h : Consistent c s m edits added) (hfits : call.Fits)
    (hclean : s.CleanCall call) (herr : s.perform c call = (.error e, s')) :
    ∃ m' edits', Consistent c s' m' edits' added := by
  have hoff : s.manifestOffset = m.blockOffset := by rw [manifestOffset, h.manifest]; rfl
  obtain ⟨hc, hlog, hprev, hcases⟩ := logAndApply_error (h.toLogged.prepare call)
    (hfits.encodable_stash h.logNumber h.prevLogNumber)
    (fun fault hfault => hoff ▸ hclean.1 fault hfault) herr
  have hlog' : s'.vs.logNumber < 2 ^ 64 := hlog ▸ h.logNumber
  have hprev' : s'.vs.prevLogNumber < 2 ^ 64 := hprev ▸ h.prevLogNumber
  rcases hcases with ⟨m', hlogged'⟩ | ⟨m', hsync, hlogged'⟩
  · exact ⟨m', edits, hlogged', hc ▸ h.mirrors, hlog', hprev', h.added⟩
  · obtain ⟨hadd, hdelete⟩ := hclean.2 hsync
    refine ⟨m', _, hlogged', ?_, hlog', hprev', fun e' he' p hp => ?_⟩
    · rw [hc]
      exact h.mirrors.of_no_files hadd hdelete
    · rcases mem_append.mp he' with he' | he'
      · exact h.added e' he' p hp
      · obtain rfl := mem_singleton.mp he'
        have hnil : (((s.prepare call).vs.stash call.edit).pairs : List (ℕ × ℕ)) = [] := by
          simp [VersionEdit.pairs, VersionSet.stash, hadd]
        simp [hnil] at hp

/-! ### Recovery after a successful call -/

/-- `recover` finds the version, the log number and the sequence number in memory. -/
def Survives (c : Comparator) (s : MetaState) (dir : Directory) : Prop :=
  ∃ vs, VersionSet.recover c dir = .ok vs ∧
    (∀ level, vs.current.files level = s.vs.current.files level) ∧
    vs.logNumber = s.vs.logNumber ∧ vs.lastSequence = s.vs.lastSequence

section

variable (h : Recorded c s m edits added)
include h

private theorem flushed_eq_accepted : m.file.flushed = m.file.accepted := by
  rw [WritableFile.accepted, h.buffer, append_nil]

/-- Bytes behind the last record that hold no complete header are ignored. -/
theorem survives_of_short {dir : Directory} {number : ℕ} {tail : Bytes}
    (hc : dir.current = some number)
    (hbytes : dir.manifests number = some (m.file.flushed ++ tail))
    (hshort : tail.length < (padding m.blockOffset).length + headerSize) :
    Survives c s dir := by
  obtain ⟨es, e, rfl, hnext, hlog, hseq⟩ := h.last
  obtain ⟨vs, hvs, hcur, hvlog, hvseq, -⟩ := finish_foldl_apply c es hnext
    (show e.lastSequence.isSome by rw [hseq]; rfl)
  rw [flushed_eq_accepted h] at hbytes
  refine ⟨vs, ?_, fun level => ?_, hvlog _ hlog, hvseq _ hseq⟩
  · rw [recover_eq h.toHoldsEdits hc hbytes, resume_of_short _ _ h.offset hshort]
    exact hvs
  · rw [hcur, h.mirrors level]

/-- A record behind the last one that is cut behind its first header makes `recover` fail. -/
theorem not_survives_of_truncated {dir : Directory} {number n : ℕ} {data : Bytes}
    (hc : dir.current = some number)
    (hbytes : dir.manifests number =
      some (m.file.flushed ++ (framed true m.blockOffset data).take n))
    (hhead : (padding m.blockOffset).length + headerSize ≤ n)
    (hcut : n < (framed true m.blockOffset data).length) : ¬ Survives c s dir := by
  rintro ⟨vs, hvs, -⟩
  rw [flushed_eq_accepted h] at hbytes
  obtain ⟨e, he⟩ := resume_truncated RecoverState.replayRecord
    (edits.foldl RecoverState.apply { vs := {}, builder := { base := {} } }) h.offset hhead hcut
  rw [recover_eq h.toHoldsEdits hc hbytes, he] at hvs
  simp at hvs

/-- Every state in which `recover` finds the files and the log number in memory. -/
def Agrees (c : Comparator) (s : MetaState) : Prop :=
  ∃ vs, VersionSet.recover c s.dir = .ok vs ∧
    (∀ level, vs.current.files level = s.vs.current.files level) ∧ vs.logNumber = s.vs.logNumber

theorem agrees_of_recorded : Agrees c s := by
  have hshort : ([] : Bytes).length < (padding m.blockOffset).length + headerSize :=
    Nat.lt_of_lt_of_le (by decide) (Nat.le_add_left headerSize _)
  obtain ⟨vs, hvs, hfiles, hlog, -⟩ := survives_of_short h h.current
    (by rw [h.disk, append_nil]) hshort
  exact ⟨vs, hvs, hfiles, hlog⟩

/-- What the callers of `log_and_apply` promise: all sizes fit, and an edit adds no file that the
version set had at the start or that an earlier successful call has added. -/
def Promised (c : Comparator) : List (ℕ × ℕ) → MetaState → List Call → Prop
  | _, _, [] => True
  | added, s, call :: calls =>
    call.Fits ∧ (∀ p ∈ call.edit.pairs, p ∉ added) ∧
      match s.perform c call with
      | (.ok _, s') => Promised c (added ++ call.edit.pairs) s' calls
      | (.error _, s') => Promised c added s' calls

variable {calls : List Call}

omit h in
theorem Promised.of_ok (h : Promised c added s (call :: calls))
    (hok : s.perform c call = (.ok (), s')) :
    Promised c (added ++ call.edit.pairs) s' calls := by
  simpa only [hok] using h.2.2

omit h in
theorem Promised.of_error {e : Status} (h : Promised c added s (call :: calls))
    (herr : s.perform c call = (.error e, s')) :
    Promised c added s' calls := by
  simpa only [herr] using h.2.2

/-! ### A crash in the middle of a call -/

/-- Successive calls, all of which succeed. -/
def runOk (c : Comparator) : MetaState → List Call → Option MetaState
  | s, [] => some s
  | s, call :: calls =>
    match s.perform c call with
    | (.ok _, s') => runOk c s' calls
    | (.error _, _) => none

/-- The directory after a crash in the middle of the call that takes `s` to `s'`: of the bytes that
the call appends to the manifest only `n` are there. -/
def crashed (s s' : MetaState) (n : ℕ) : Directory :=
  s'.dir.write s'.vs.manifestFileNumber (s'.manifestBytes.take (s.manifestBytes.length + n))

private theorem recorded_of_runOk
    (hprom : Promised c added s calls) (hrun : runOk c s calls = some s') :
    ∃ m' edits' added', Recorded c s' m' edits' added' := by
  induction calls generalizing s m edits added with
  | nil =>
    obtain rfl := Option.some.inj hrun
    exact ⟨m, edits, added, h⟩
  | cons call calls ih =>
    unfold runOk at hrun
    split at hrun
    · rename_i u s₁ hok
      exact ih (perform_ok h.toConsistent hprom.1 hprom.2.1 hok) (hprom.of_ok hok) hrun
    · simp at hrun

omit h in
/-- The state after a first call that starts the manifest and more calls, all successful. -/
private theorem recorded_of_runOk_fresh {first : Call} {rest : List Call} (hfresh : s.vs.Fresh c)
    (hvs : s.vs.Fits c) (hprom : Promised c s.vs.pairs s (first :: rest))
    (hrun : runOk c s (first :: rest) = some s') :
    ∃ m edits added, Recorded c s' m edits added := by
  unfold runOk at hrun
  split at hrun
  · rename_i u s₁ hok
    obtain ⟨m, edits, h⟩ := perform_new_ok hfresh hvs hprom.1 hprom.2.1 hok
    exact recorded_of_runOk h (hprom.of_ok hok) hrun
  · simp at hrun

/-- What the last call has appended, and what a crash leaves of it. -/
private theorem manifests_crashed {n : ℕ} (hfits : call.Fits)
    (hok : s.perform c call = (.ok (), s')) :
    s'.manifestBytes = s.manifestBytes ++
        framed true m.blockOffset ((s.prepare call).vs.stash call.edit).encode ∧
      (crashed s s' n).current = some s'.vs.manifestFileNumber ∧
      (crashed s s' n).manifests s'.vs.manifestFileNumber = some (m.file.flushed ++
        (framed true m.blockOffset ((s.prepare call).vs.stash call.edit).encode).take n) := by
  obtain ⟨hlogged', -⟩ := logAndApply_ok (h.toLogged.prepare call)
    (hfits.encodable_stash h.logNumber h.prevLogNumber) hok
  have hbefore : s.manifestBytes = m.file.flushed := by rw [manifestBytes, h.disk]; rfl
  have hafter : s'.manifestBytes = m.file.flushed ++
      framed true m.blockOffset ((s.prepare call).vs.stash call.edit).encode := by
    rw [manifestBytes, hlogged'.disk]
    simp [LogFile.appended, WritableFile.accepted, h.buffer]
  refine ⟨by rw [hafter, hbefore], hlogged'.current, ?_⟩
  simp only [crashed, Directory.write, Function.update_self, hafter, hbefore,
    take_length_add_append]

end

/-- **The manifest after a crash inside `log_and_apply`.** Of the record of the crashed call the
first `n` bytes are in the manifest. `recover` gives back the state before the call exactly when
they do not hold a complete record header. -/
theorem recover_after_crash_iff {start : VersionSet} {dir : Directory} {first last : Call}
    {rest : List Call} {n : ℕ} (hfresh : start.Fresh c) (hstart : start.Fits c)
    (hprom : Promised c start.pairs ⟨start, dir⟩ (first :: rest)) (hlastFits : last.Fits)
    (hrun : runOk c ⟨start, dir⟩ (first :: rest) = some s)
    (hlast : s.perform c last = (.ok (), s'))
    (hn : s.manifestBytes.length + n < s'.manifestBytes.length) :
    Survives c s (crashed s s' n) ↔ n < (padding s.manifestOffset).length + headerSize := by
  obtain ⟨m, edits, added, h⟩ :=
    recorded_of_runOk_fresh (s := ⟨start, dir⟩) hfresh hstart hprom hrun
  obtain ⟨happ, hc, hbytes⟩ := manifests_crashed (n := n) h hlastFits hlast
  have hoff : s.manifestOffset = m.blockOffset := by rw [manifestOffset, h.manifest]; rfl
  rw [happ, length_append] at hn
  rw [hoff]
  constructor
  · intro hsurvives
    by_contra hlong
    exact not_survives_of_truncated h hc hbytes (not_lt.mp hlong) (by omega) hsurvives
  · intro hshort
    refine survives_of_short h hc hbytes ?_
    rw [length_take]
    omega

/-- A call with an edit that changes nothing. -/
def emptyCall : Call where
  lastSequence := 0
  nextFileNumber := 2
  edit := {}

theorem fits_emptyCall : emptyCall.Fits where
  lastSequence := by decide
  nextFileNumber := by decide
  compactPointer _ := Nat.two_pow_pos 32
  edit := VersionEdit.encodable_default

theorem fits_new : ({} : VersionSet).Fits bytewiseComparator where
  name := by decide +kernel
  logNumber := by decide
  prevLogNumber := by decide
  files _ _ hf := by simp at hf

theorem perform_eq_of_isOk (h : (s.perform c call).1.toBool = true) :
    s.perform c call = (.ok (), (s.perform c call).2) := by
  rcases hs : s.perform c call with ⟨e | u, s₁⟩
  · simp [hs, Except.toBool] at h
  · rfl

/-- The state after one call on an empty directory, which starts the first manifest. -/
def emptyCrash : MetaState := (perform {} bytewiseComparator emptyCall).2

theorem perform_emptyCall : perform {} bytewiseComparator emptyCall = (.ok (), emptyCrash) :=
  perform_eq_of_isOk (by decide +kernel)

private theorem perform_emptyCrash : emptyCrash.perform bytewiseComparator emptyCall =
    (.ok (), (emptyCrash.perform bytewiseComparator emptyCall).2) :=
  perform_eq_of_isOk (by decide +kernel)

theorem promised_nil : Promised c added s [] := trivial

theorem promised_emptyCall (h : ∀ added, Promised c added (s.perform c emptyCall).2 calls) :
    Promised c added s (emptyCall :: calls) := by
  refine ⟨fits_emptyCall, by simp [emptyCall, VersionEdit.pairs], ?_⟩
  rcases hs : s.perform c emptyCall with ⟨e | u, s₁⟩
  · simpa only [hs] using h added
  · simpa only [hs] using h (added ++ emptyCall.edit.pairs)

theorem runOk_emptyCall : runOk bytewiseComparator {} [emptyCall] = some emptyCrash := by
  simp [runOk, perform_emptyCall]

/-- Seven of the fifteen bytes of the second record make a complete header: `recover` reports a
truncated payload. -/
theorem not_survives_header :
    runOk bytewiseComparator {} [emptyCall] = some emptyCrash ∧
      ∃ s', emptyCrash.perform bytewiseComparator emptyCall = (.ok (), s') ∧
        emptyCrash.manifestBytes.length + 7 < s'.manifestBytes.length ∧
        ¬ Survives bytewiseComparator emptyCrash (crashed emptyCrash s' 7) := by
  refine ⟨runOk_emptyCall, _, perform_emptyCrash, by decide +kernel, ?_⟩
  rintro ⟨vs, hvs, -⟩
  have herr : (VersionSet.recover bytewiseComparator (crashed emptyCrash
      (emptyCrash.perform bytewiseComparator emptyCall).2 7)).toBool = false := by
    decide +kernel
  simp [hvs, Except.toBool] at herr

/-- Six bytes are not a complete header: `recover` takes them for the end of the manifest. -/
theorem survives_six_bytes :
    Survives bytewiseComparator emptyCrash
      (crashed emptyCrash (emptyCrash.perform bytewiseComparator emptyCall).2 6) :=
  (recover_after_crash_iff .new fits_new
    (promised_emptyCall fun _ => promised_nil) fits_emptyCall runOk_emptyCall perform_emptyCrash
      (by decide +kernel)).mpr (by decide +kernel)

/-! ### Failed calls -/

/-- A call that succeeds or fails. -/
def step (c : Comparator) (s : MetaState) (call : Call) : MetaState := (s.perform c call).2

private theorem recorded_of_runCalls {last : Call} (h : Consistent c s m edits added)
    (hprom : Promised c added s (calls ++ [last]))
    (hclean : Runs.Along (step c) CleanCall s calls)
    (hlast : (Runs.run (step c) s calls).perform c last = (.ok (), s')) :
    ∃ m' edits' added', Recorded c s' m' edits' added' := by
  induction calls generalizing s m edits added with
  | nil => exact ⟨_, _, _, perform_ok h hprom.1 hprom.2.1 hlast⟩
  | cons call calls ih =>
    rcases hs : s.perform c call with ⟨e | u, s₁⟩
    · obtain ⟨m₁, edits₁, h₁⟩ := perform_error h hprom.1 hclean.1 hs
      refine ih h₁ (hprom.of_error hs) ?_ ?_
      · simpa only [step, hs] using hclean.2
      · simpa only [Runs.run_cons, step, hs] using hlast
    · refine ih (perform_ok h hprom.1 hprom.2.1 hs).toConsistent (hprom.of_ok hs) ?_ ?_
      · simpa only [step, hs] using hclean.2
      · simpa only [Runs.run_cons, step, hs] using hlast

/-- **Manifest and memory agree after a successful call.** The first call starts the manifest, and
each of the next ones succeeds or fails. If no failed append leaves a byte of its record, and no
sync fails behind an edit that adds or deletes a file, then `recover` finds the files and the log
number that are in memory after the last, successful, call. -/
theorem agrees_after_ok {start : VersionSet} {dir : Directory} {first last : Call}
    {calls : List Call} {s₁ : MetaState} (hfresh : start.Fresh c) (hstart : start.Fits c)
    (hprom : Promised c start.pairs ⟨start, dir⟩ (first :: (calls ++ [last])))
    (hfst : perform ⟨start, dir⟩ c first = (.ok (), s₁))
    (hclean : Runs.Along (step c) CleanCall s₁ calls)
    (hlast : (Runs.run (step c) s₁ calls).perform c last = (.ok (), s')) : Agrees c s' := by
  obtain ⟨m, edits, h⟩ := perform_new_ok (s := ⟨start, dir⟩) hfresh hstart hprom.1 hprom.2.1 hfst
  obtain ⟨m', edits', added', h'⟩ :=
    recorded_of_runCalls h.toConsistent (hprom.of_ok hfst) hclean hlast
  exact agrees_of_recorded h'

/-- A call that adds a table to level 0. -/
def addCall (io : CallIo) : Call where
  lastSequence := 0
  nextFileNumber := 3
  io := io
  edit := { newFiles := [⟨0, ⟨9, 1, [1], [2]⟩⟩] }

theorem fits_addCall (io : CallIo) : (addCall io).Fits where
  lastSequence := Nat.two_pow_pos 64
  nextFileNumber := show 4 < 2 ^ 64 by decide
  compactPointer _ := Nat.two_pow_pos 32
  edit := by
    constructor <;> simp only [addCall, Option.not_mem_none, not_mem_nil, mem_singleton,
      forall_eq, false_imp_iff, implies_true]
    exact ⟨by decide, by decide, by decide, by decide, by decide⟩

theorem promised_addCall (io : CallIo) : Promised bytewiseComparator [] {}
    (emptyCall :: ([addCall io] ++ [emptyCall])) := by
  refine ⟨fits_emptyCall, by simp, ?_⟩
  rw [perform_emptyCall]
  refine ⟨fits_addCall io, by simp [emptyCall, VersionEdit.pairs], ?_⟩
  split <;> exact promised_emptyCall fun _ => promised_nil

/-- The sync behind the record of a new table fails: the version in memory does not have the table,
and the manifest has it. -/
theorem not_agrees_after_failed_sync :
    let failed := addCall { sync := some ⟨0, 0⟩ }
    Promised bytewiseComparator [] {} (emptyCall :: ([failed] ++ [emptyCall])) ∧
      perform {} bytewiseComparator emptyCall = (.ok (), emptyCrash) ∧
      ∃ s', (Runs.run (step bytewiseComparator) emptyCrash [failed]).perform
        bytewiseComparator emptyCall =
        (.ok (), s') ∧ ¬ Agrees bytewiseComparator s' := by
  refine ⟨promised_addCall _, perform_emptyCall, _, perform_eq_of_isOk (by decide +kernel), ?_⟩
  rintro ⟨vs, hvs, hfiles, -⟩
  have hmemory :
    (((Runs.run (step bytewiseComparator) emptyCrash [addCall { sync := some ⟨0, 0⟩ }]).perform
      bytewiseComparator emptyCall).2.vs.current.files 0).length = 0 := by
    decide +kernel
  have hdisk : ((VersionSet.recover bytewiseComparator
      ((Runs.run (step bytewiseComparator) emptyCrash [addCall { sync := some ⟨0, 0⟩ }]).perform
        bytewiseComparator emptyCall).2.dir).map fun vs => (vs.current.files 0).length).toOption =
      some 1 := by
    decide +kernel
  rw [hvs] at hdisk
  rw [← hfiles 0] at hmemory
  simp [Except.map, Except.toOption, hmemory] at hdisk

/-- The append of a new table fails and leaves no byte. -/
theorem agrees_after_failed_append :
    let failed := addCall { append := some ⟨0, 0⟩ }
    Agrees bytewiseComparator
      ((Runs.run (step bytewiseComparator) emptyCrash [failed]).perform bytewiseComparator
        emptyCall).2 :=
  agrees_after_ok .new fits_new (promised_addCall _) perform_emptyCall
    ⟨⟨by decide +kernel, by simp [addCall]⟩, trivial⟩ (perform_eq_of_isOk (by decide +kernel))

end MetaState
end PulsearcDb
