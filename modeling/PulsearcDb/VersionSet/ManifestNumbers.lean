import PulsearcDb.VersionSet.ManifestFaults

/-!
# What a recovered version set knows

After any successful calls `recover` rebuilds the version in memory and finds the log numbers and
the sequence number of the last call: the manifest starts with a record of the version before the
first call, and collecting the edits of all calls in one builder gives what applying them one by one
has given.

The counter for file numbers comes back as the last record has it. A record is filled in before a
new manifest takes its number, so the counter covers the manifest only when a further call has been
made on it.
-/

namespace PulsearcDb

open List
namespace MetaState

variable {c : Comparator} {s s' : MetaState} {call : Call}

/-! ### A successful call -/

theorem perform_of_open {m : LogFile} (h : s.vs.manifest = some m)
    (hok : s.perform c call = (.ok (), s')) :
    Installed c (s.prepare call) call.edit s' ∧ s'.vs.nextFileNumber = call.nextFileNumber ∧
      s'.vs.manifestFileNumber = s.vs.manifestFileNumber := by
  rw [perform, @logAndApply_of_open (s.prepare call) m c call.io call.edit h] at hok
  obtain ⟨e, m₁, -, heq⟩ | ⟨e, -, heq⟩ | ⟨t, rfl, heq⟩ := logToOpenManifest_cases
    { s.prepare call with vs := (s.prepare call).vs.setCompactPointers call.edit.compactPointers }
    call.io m ((s.prepare call).vs.stash call.edit) ((s.prepare call).nextVersion c call.edit)
  · simp [heq] at hok
  · simp [heq] at hok
  · rw [heq] at hok
    obtain rfl := (Prod.mk.inj hok).2
    exact ⟨⟨rfl, rfl, rfl, rfl⟩, rfl, rfl⟩

theorem perform_of_new (h : s.vs.manifest = none) (hok : s.perform c call = (.ok (), s')) :
    Installed c (s.prepare call) call.edit s' ∧
      s'.vs.nextFileNumber = call.nextFileNumber + 1 ∧
      s'.vs.manifestFileNumber = call.nextFileNumber := by
  have heq : s.perform c call = ((s.prepare call).beforeSnapshot call.edit).logToNewManifest c
      call.io ((s.prepare call).vs.stash call.edit) ((s.prepare call).nextVersion c call.edit) := by
    have hnone : (s.prepare call).vs.manifest = none := h
    simp only [perform, logAndApply, manifest_setCompactPointers, hnone]
    rfl
  rw [heq] at hok
  obtain ⟨t, rfl, rfl⟩ := logToNewManifest_ok hok
  exact ⟨⟨rfl, rfl, rfl, rfl⟩, rfl, rfl⟩

theorem installed_of_perform_ok (hok : s.perform c call = (.ok (), s')) :
    Installed c (s.prepare call) call.edit s' := by
  rcases h : s.vs.manifest with _ | m
  · exact (perform_of_new h hok).1
  · exact (perform_of_open h hok).1

/-! ### Recovery finds the state in memory -/

/-- The call was the last one, and the manifest ends with its edit. -/
def EndsWith (c : Comparator) (call : Call) (s' : MetaState) : Prop :=
  ∃ (s : MetaState) (m : LogFile) (edits : List VersionEdit) (added : List (ℕ × ℕ)),
    s.perform c call = (.ok (), s') ∧
      Recorded c s' m (edits ++ [(s.prepare call).vs.stash call.edit]) added

private theorem endsWith_of_runOk {m : LogFile} {edits : List VersionEdit} {added : List (ℕ × ℕ)}
    {calls : List Call} (h : Consistent c s m edits added)
    (hprom : Promised c added s (call :: calls)) (hrun : runOk c s (call :: calls) = some s') :
    EndsWith c ((call :: calls).getLast (cons_ne_nil call calls)) s' := by
  induction calls generalizing s m edits added call with
  | nil =>
    unfold runOk at hrun
    split at hrun
    · rename_i u s₁ hok
      obtain rfl := Option.some.inj hrun
      exact ⟨s, _, edits, _, hok, perform_ok h hprom.1 hprom.2.1 hok⟩
    · simp at hrun
  | cons next calls ih =>
    rw [getLast_cons_cons]
    rw [runOk] at hrun
    split at hrun
    · rename_i u s₁ hok
      exact ih (perform_ok h hprom.1 hprom.2.1 hok).toConsistent (hprom.of_ok hok) hrun
    · simp at hrun

private theorem endsWith_of_fresh {calls : List Call} (hfresh : s.vs.Fresh c) (hvs : s.vs.Fits c)
    (hprom : Promised c s.vs.pairs s (call :: calls)) (hrun : runOk c s (call :: calls) = some s') :
    EndsWith c ((call :: calls).getLast (cons_ne_nil call calls)) s' := by
  rw [runOk] at hrun
  split at hrun
  · rename_i u s₁ hok
    obtain ⟨m, snapshot, h⟩ := perform_new_ok hfresh hvs hprom.1 hprom.2.1 hok
    cases calls with
    | nil =>
      obtain rfl := Option.some.inj hrun
      exact ⟨s, m, [snapshot], _, hok, h⟩
    | cons next calls =>
      rw [getLast_cons_cons]
      exact endsWith_of_runOk h.toConsistent (hprom.of_ok hok) hrun
  · simp at hrun

/-- **Replaying the manifest gives the version in memory.** The calls start from a version set that
was just created or recovered, and all of them succeed; an edit adds no file, at a level, that was
there at the start or that an earlier call has added. -/
theorem recover_runOk {start : VersionSet} {dir : Directory} {first : Call} {rest : List Call}
    (hfresh : start.Fresh c) (hstart : start.Fits c)
    (hprom : Promised c start.pairs ⟨start, dir⟩ (first :: rest))
    (hrun : runOk c ⟨start, dir⟩ (first :: rest) = some s) :
    ∃ vs, VersionSet.recover c s.dir = .ok vs ∧
      (∀ level, vs.current.files level = s.vs.current.files level) ∧
      vs.logNumber = s.vs.logNumber ∧ vs.prevLogNumber = s.vs.prevLogNumber ∧
      vs.lastSequence = ((first :: rest).getLast (cons_ne_nil first rest)).lastSequence := by
  obtain ⟨t, m, edits, added, hok, h⟩ :=
    endsWith_of_fresh (s := ⟨start, dir⟩) hfresh hstart hprom hrun
  generalize (first :: rest).getLast (cons_ne_nil first rest) = last at *
  have hinst := installed_of_perform_ok hok
  obtain ⟨vs, hvs, hcur, hlog, hseq, hprev, -⟩ :=
    @finish_foldl_apply c edits ((t.prepare last).vs.stash last.edit) rfl rfl
  have hflushed : m.file.flushed = m.file.accepted ++ [] := by
    rw [WritableFile.accepted, h.buffer, append_nil, append_nil]
  refine ⟨vs, ?_, fun level => ?_, ?_, ?_, hseq _ rfl⟩
  · rw [recover_eq h.toHoldsEdits h.current (hflushed ▸ h.disk), Log.resume_nil _ _ h.offset]
    exact hvs
  · rw [hcur, h.mirrors level]
  · rw [hlog _ rfl, hinst.logNumber]
  · rw [hprev _ rfl, hinst.prevLogNumber]

theorem recover_addCall :
    ∃ s, runOk bytewiseComparator {} [emptyCall, addCall {}] = some s ∧
      ∃ vs, VersionSet.recover bytewiseComparator s.dir = .ok vs ∧
        (∀ level, vs.current.files level = s.vs.current.files level) ∧
        vs.logNumber = s.vs.logNumber ∧ vs.prevLogNumber = s.vs.prevLogNumber ∧
        vs.lastSequence = (addCall {}).lastSequence := by
  obtain ⟨s, hs⟩ := Option.isSome_iff_exists.mp
    (show (runOk bytewiseComparator {} [emptyCall, addCall {}]).isSome by decide +kernel)
  have hprom : Promised bytewiseComparator [] {} [emptyCall, addCall {}] := by
    refine ⟨fits_emptyCall, by simp, ?_⟩
    rw [perform_emptyCall]
    refine ⟨fits_addCall {}, by simp [emptyCall, VersionEdit.pairs], ?_⟩
    split <;> exact promised_nil
  exact ⟨s, hs, recover_runOk .new fits_new hprom hs⟩

end MetaState

/-! ### Fresh file numbers -/

/-- What the callers promise of the numbers in a call: the counter has not gone back, and the
numbers of its files and its log were taken from the counter. -/
structure Call.Allocated (vs : VersionSet) (call : Call) : Prop where
  next_le : vs.nextFileNumber ≤ call.nextFileNumber
  newFiles : ∀ nf ∈ call.edit.newFiles, nf.file.number < call.nextFileNumber
  logNumber : ∀ n ∈ call.edit.logNumber, n < call.nextFileNumber

namespace MetaState

variable {c : Comparator} {s s' : MetaState} {call : Call}

/-- The states that successful calls on one directory lead to, from an empty directory on and over
any number of recoveries, with the number of calls on the manifest that is open. -/
inductive Reached (c : Comparator) : ℕ → MetaState → Prop
  | create : Reached c 0 {}
  | call {n : ℕ} {s s' : MetaState} {call : Call} (h : Reached c n s) (hfits : call.Fits)
      (hnums : call.Allocated s.vs) (hok : s.perform c call = (.ok (), s')) :
      Reached c (n + 1) s'
  | reopen {n : ℕ} {s : MetaState} {vs : VersionSet} (h : Reached c n s)
      (hr : VersionSet.recover c s.dir = .ok vs) : Reached c 0 ⟨vs, s.dir⟩

/-- A version set without a manifest, whose counter covers its files and its log. -/
structure Unlogged (c : Comparator) (vs : VersionSet) : Prop where
  manifest : vs.manifest = none
  fits : vs.Fits c
  files : ∀ level, ∀ f ∈ vs.current.files level, f.number < vs.nextFileNumber
  logNumber : vs.logNumber < vs.nextFileNumber

/-- A manifest whose last record holds the counter `next`, which covers the files of all records. -/
structure Counted (n next : ℕ) (s : MetaState) (m : LogFile) (edits : List VersionEdit) : Prop
    extends Logged s m edits where
  buffer : m.file.buffer = []
  last : ∃ es e, edits = es ++ [e] ∧ e.nextFileNumber = some next ∧ e.lastSequence.isSome ∧
    e.logNumber = some s.vs.logNumber ∧ e.prevLogNumber = some s.vs.prevLogNumber
  files : ∀ e ∈ edits, ∀ nf ∈ e.newFiles, nf.file.number < next
  logNumber : s.vs.logNumber < next
  next_le : next ≤ s.vs.nextFileNumber
  next_lt : next < 2 ^ 64
  prevLogNumber : s.vs.prevLogNumber < 2 ^ 64
  number : s.vs.manifestFileNumber < next ↔ 2 ≤ n
  number_lt : s.vs.manifestFileNumber < s.vs.nextFileNumber

variable {edits : List VersionEdit} {m : LogFile}

/-- The files that recovery finds come from the records. -/
theorem exists_newFile_of_replayed {level : ℕ} {f : FileMetaData}
    (h : f ∈ ((replayed edits).saveTo c).files level) :
    ∃ e ∈ edits, ∃ nf ∈ e.newFiles, nf.file = f := by
  rw [VersionBuilder.files_saveTo] at h
  split_ifs at h
  · rw [mem_insertionSort, VersionBuilder.kept, files_base_replayed, filter_nil,
      nil_append, mem_filter, addedFiles_replayed, mem_flatMap] at h
    obtain ⟨⟨e, he, hf⟩, -⟩ := h
    obtain ⟨nf, hnf, rfl⟩ := mem_map.mp hf
    exact ⟨e, he, nf, mem_of_mem_filter hnf, rfl⟩
  · cases h

/-- What recovery makes of a manifest. -/
theorem Counted.recover {n next : ℕ} (h : Counted n next s m edits) :
    ∃ vs, VersionSet.recover c s.dir = .ok vs ∧ vs.nextFileNumber = next ∧
      vs.logNumber = s.vs.logNumber ∧ vs.prevLogNumber = s.vs.prevLogNumber ∧ vs.manifest = none ∧
      ∀ level, ∀ f ∈ vs.current.files level, f.number < next ∧ f.Encodable := by
  obtain ⟨es, e, rfl, hnext, hseq, hlog, hprev⟩ := h.last
  obtain ⟨vs, hvs, hcur, hvlog, -, hvprev, hvnext⟩ :=
    finish_foldl_apply c es (Option.isSome_of_eq_some hnext) hseq
  have hflushed : m.file.flushed = m.file.accepted ++ [] := by
    rw [WritableFile.accepted, h.buffer, append_nil, append_nil]
  have hr : VersionSet.recover c s.dir = .ok vs := by
    rw [recover_eq h.toHoldsEdits h.current (hflushed ▸ h.disk), Log.resume_nil _ _ h.offset]
    exact hvs
  refine ⟨vs, hr, hvnext next hnext, hvlog _ hlog, hvprev _ hprev,
    (exists_builder_of_recover hr).1, fun level f hf => ?_⟩
  rw [hcur] at hf
  obtain ⟨e', he', nf, hnf, rfl⟩ := exists_newFile_of_replayed hf
  exact ⟨h.files e' he' nf hnf, ((h.encodable e' he').newFiles nf hnf).2⟩

theorem Counted.unlogged {n next : ℕ} {vs : VersionSet} (h : Counted n next s m edits)
    (hname : c.name.toUTF8.toList.length < 2 ^ 32) (hvs : VersionSet.recover c s.dir = .ok vs) :
    Unlogged c vs := by
  obtain ⟨vs', hvs', rfl, hlog, hprev, hman, hfiles⟩ := h.recover (c := c)
  obtain rfl : vs' = vs := Except.ok.inj (hvs'.symm.trans hvs)
  refine ⟨hman, ⟨hname, ?_, ?_, fun level f hf => (hfiles level f hf).2⟩,
    fun level f hf => (hfiles level f hf).1, ?_⟩
  · rw [hlog]
    exact h.logNumber.trans h.next_lt
  · rw [hprev]
    exact h.prevLogNumber
  · rw [hlog]
    exact h.logNumber

/-- **The first call on a manifest** leaves the number of the manifest in the counter. -/
theorem Unlogged.counted (h : Unlogged c s.vs) (hfits : call.Fits) (hnums : call.Allocated s.vs)
    (hok : s.perform c call = (.ok (), s')) :
    ∃ m edits, Counted 1 call.nextFileNumber s' m edits := by
  have hlt : call.nextFileNumber < 2 ^ 64 := Nat.lt_of_succ_lt hfits.nextFileNumber
  obtain ⟨hlogged, -⟩ := @logAndApply_new_ok (s.prepare call) s' c call.io call.edit h.manifest
    (hfits.encodable_snapshotEdit h.fits)
    (hfits.encodable_stash h.fits.logNumber h.fits.prevLogNumber) hok
  obtain ⟨hinst, hnext, hnum⟩ := perform_of_new h.manifest hok
  refine ⟨_, _, hlogged, rfl, ⟨[_], _, rfl, rfl, rfl, ?_, ?_⟩, ?_, ?_, ?_, hlt, ?_, ?_, ?_⟩
  · rw [hinst.logNumber]
    rfl
  · rw [hinst.prevLogNumber]
    rfl
  · intro e he nf hnf
    rcases mem_pair.mp he with rfl | rfl
    · simp only [VersionSet.snapshotEdit, mem_flatMap, mem_map] at hnf
      obtain ⟨level, -, f, hf, rfl⟩ := hnf
      exact (h.files level f hf).trans_le hnums.next_le
    · exact hnums.newFiles nf hnf
  · rw [hinst.logNumber]
    exact getD_lt hnums.logNumber (h.logNumber.trans_le hnums.next_le)
  · rw [hnext]
    exact Nat.le_succ _
  · rw [hinst.prevLogNumber]
    exact getD_lt hfits.edit.prevLogNumber h.fits.prevLogNumber
  · rw [hnum]
    exact iff_of_false (lt_irrefl _) (by decide)
  · rw [hnum, hnext]
    exact Nat.lt_succ_self _

/-- **A further call** takes the counter beyond the number of the manifest. -/
theorem Counted.perform {n next : ℕ} (h : Counted n next s m edits) (hn : 1 ≤ n) (hfits : call.Fits)
    (hnums : call.Allocated s.vs) (hok : s.perform c call = (.ok (), s')) :
    ∃ m edits, Counted (n + 1) call.nextFileNumber s' m edits := by
  have hlt : call.nextFileNumber < 2 ^ 64 := Nat.lt_of_succ_lt hfits.nextFileNumber
  have hle : next ≤ call.nextFileNumber := h.next_le.trans hnums.next_le
  obtain ⟨hlogged', -⟩ := logAndApply_ok (h.toLogged.prepare call)
    (hfits.encodable_stash (h.logNumber.trans h.next_lt) h.prevLogNumber) hok
  obtain ⟨hinst, hnext, hnum⟩ := perform_of_open h.manifest hok
  have hcovers : s.vs.manifestFileNumber < call.nextFileNumber := h.number_lt.trans_le hnums.next_le
  refine ⟨_, _, hlogged', rfl, ⟨edits, _, rfl, rfl, rfl, ?_, ?_⟩, ?_, ?_, hnext.ge, hlt, ?_, ?_, ?_⟩
  · rw [hinst.logNumber]
    rfl
  · rw [hinst.prevLogNumber]
    rfl
  · intro e he nf hnf
    rcases mem_append.mp he with he | he
    · exact (h.files e he nf hnf).trans_le hle
    · rw [mem_singleton.mp he] at hnf
      exact hnums.newFiles nf hnf
  · rw [hinst.logNumber]
    exact getD_lt hnums.logNumber (h.logNumber.trans_le hle)
  · rw [hinst.prevLogNumber]
    exact getD_lt hfits.edit.prevLogNumber h.prevLogNumber
  · rw [hnum]
    exact iff_of_true hcovers (Nat.succ_le_succ hn)
  · rw [hnum, hnext]
    exact hcovers

theorem unlogged_new (hname : c.name.toUTF8.toList.length < 2 ^ 32) : Unlogged c {} where
  manifest := rfl
  fits := ⟨hname, by decide, by decide, fun _ _ hf => absurd hf not_mem_nil⟩
  files _ _ hf := absurd hf not_mem_nil
  logNumber := by decide

/-- Where a run stands: before the first call on a manifest, or behind it. -/
theorem Reached.cases {n : ℕ} (hname : c.name.toUTF8.toList.length < 2 ^ 32) (h : Reached c n s) :
    (n = 0 ∧ Unlogged c s.vs ∧ (s.dir.current = none ∨ ∃ k next t m edits,
      1 ≤ k ∧ Counted k next t m edits ∧ t.dir = s.dir)) ∨
      1 ≤ n ∧ ∃ next m edits, Counted n next s m edits := by
  induction h with
  | create => exact .inl ⟨rfl, unlogged_new hname, .inl rfl⟩
  | call h hfits hnums hok ih =>
    right
    rcases ih with ⟨rfl, hunlogged, -⟩ | ⟨hn, next, m, edits, hcnt⟩
    · obtain ⟨m, edits, hcnt⟩ := hunlogged.counted hfits hnums hok
      exact ⟨le_rfl, _, m, edits, hcnt⟩
    · obtain ⟨m', edits', hcnt'⟩ := hcnt.perform hn hfits hnums hok
      exact ⟨Nat.le_succ_of_le hn, _, m', edits', hcnt'⟩
  | reopen h hr ih =>
    left
    rcases ih with ⟨-, hunlogged, hnone | ⟨k, next, t, m, edits, hk, hcnt, hdir⟩⟩ |
      ⟨hn, next, m, edits, hcnt⟩
    · simp [VersionSet.recover, hnone] at hr
    · exact ⟨rfl, hcnt.unlogged hname (hdir ▸ hr), .inr ⟨k, next, t, m, edits, hk, hcnt, hdir⟩⟩
    · exact ⟨rfl, hcnt.unlogged hname hr, .inr ⟨_, next, _, m, edits, hn, hcnt, rfl⟩⟩

/-- The counter that recovery sets is beyond the tables it finds, the log number and the number of
the manifest. -/
def FreshNumbers (c : Comparator) (dir : Directory) : Prop :=
  ∃ vs number, VersionSet.recover c dir = .ok vs ∧ dir.current = some number ∧
    (∀ level, ∀ f ∈ vs.current.files level, f.number < vs.nextFileNumber) ∧
    vs.logNumber < vs.nextFileNumber ∧ number < vs.nextFileNumber

/-- **Recovered numbers are fresh** exactly when the manifest has taken a call after the one that
started it. -/
theorem freshNumbers_iff {n : ℕ} (hname : c.name.toUTF8.toList.length < 2 ^ 32)
    (h : Reached c n s) (hn : 1 ≤ n) : FreshNumbers c s.dir ↔ 2 ≤ n := by
  obtain ⟨rfl, -⟩ | ⟨-, next, m, edits, hcnt⟩ := h.cases hname
  · omega
  · obtain ⟨vs, hvs, rfl, hlog, -, -, hfiles⟩ := hcnt.recover (c := c)
    rw [← hcnt.number]
    constructor
    · rintro ⟨vs', number, hvs', hcur, -, -, hlt⟩
      obtain rfl : vs = vs' := Except.ok.inj (hvs.symm.trans hvs')
      obtain rfl := Option.some.inj (hcnt.current.symm.trans hcur)
      exact hlt
    · intro hlt
      refine ⟨vs, _, hvs, hcnt.current, fun level f hf => (hfiles level f hf).1, ?_, hlt⟩
      rw [hlog]
      exact hcnt.logNumber

theorem allocated_emptyCall {vs : VersionSet} (h : vs.nextFileNumber ≤ 2) :
    emptyCall.Allocated vs where
  next_le := h
  newFiles _ hnf := absurd hnf not_mem_nil
  logNumber _ hn := by cases hn

/-- The first call on an empty directory writes the counter 2 into manifest 2. -/
theorem not_freshNumbers_first :
    Reached bytewiseComparator 1 emptyCrash ∧ ¬ FreshNumbers bytewiseComparator emptyCrash.dir := by
  refine ⟨.call .create fits_emptyCall (allocated_emptyCall le_rfl) perform_emptyCall, ?_⟩
  rintro ⟨vs, number, hvs, hcur, -, -, hlt⟩
  have hnum : emptyCrash.dir.current = some 2 := by decide +kernel
  have hnext : ((VersionSet.recover bytewiseComparator emptyCrash.dir).map
      VersionSet.nextFileNumber).toOption = some 2 := by
    decide +kernel
  rw [hvs] at hnext
  obtain rfl := Option.some.inj (hnum.symm.trans hcur)
  exact hlt.ne' (Option.some.inj hnext)

/-- A second call, with the counter as the first one has left it. -/
def secondCall : Call := { emptyCall with nextFileNumber := 3 }

theorem freshNumbers_second :
    FreshNumbers bytewiseComparator (emptyCrash.perform bytewiseComparator secondCall).2.dir := by
  have hfits : secondCall.Fits :=
    ⟨by decide, by decide, fun _ => Nat.two_pow_pos 32, VersionEdit.encodable_default⟩
  have hnums : secondCall.Allocated emptyCrash.vs :=
    ⟨by decide +kernel, fun _ hnf => absurd hnf not_mem_nil, fun _ hn => by cases hn⟩
  exact (freshNumbers_iff (by decide +kernel)
    ((Reached.call .create fits_emptyCall (allocated_emptyCall le_rfl) perform_emptyCall).call hfits
      hnums (perform_eq_of_isOk (by decide +kernel))) (by decide)).mpr (by decide)

end MetaState
end PulsearcDb
