import PulsearcDb.DbImpl.LsmFlush

/-!
# The tree as a map

Without snapshots a merge keeps one entry of a user key at most. So a user key is never split over
two files of a level below level 0 (`Lsm.Whole`), and no compaction can tear one. What a read
returns is then a function of the writes alone: rotations, flushes and compactions move entries and
drop those that no read needs, and a key has the value of the last write to it, over every run.

Under snapshots a compaction may tear a key. In the runs where none does, a live snapshot reads what
was there when it was taken: later writes have larger sequence numbers, and a merge drops an entry
only for a newer one that the oldest snapshot sees.
-/

namespace PulsearcDb

open Recency List

/-! ### What a merge keeps without snapshots -/

/-- The keys that are kept are all different when every entry is visible to the oldest reader. -/
theorem pairwise_kept {isBase : Bytes → Bool} {s : ℕ} {entries : List Entry}
    (hsort : entries.Pairwise fun a b => a.key ≤ b.key) (hle : ∀ e ∈ entries, e.sequence ≤ s)
    {lastUserKey : Option Bytes} {lastSequenceForKey : ℕ}
    (hlast : ∀ k ∈ lastUserKey, lastSequenceForKey ≤ s ∧ ∀ e ∈ entries, k ≤ e.key) :
    (kept isBase s lastUserKey lastSequenceForKey entries).Pairwise (fun a b => a.key < b.key) ∧
      ∀ k ∈ lastUserKey, ∀ e ∈ kept isBase s lastUserKey lastSequenceForKey entries, k < e.key := by
  induction entries generalizing lastUserKey lastSequenceForKey with
  | nil => exact ⟨List.Pairwise.nil, fun _ _ _ he => absurd he not_mem_nil⟩
  | cons e entries ih =>
    obtain ⟨hfst, hsort⟩ := pairwise_cons.mp hsort
    obtain ⟨hse, hle⟩ := forall_mem_cons.mp hle
    have hnext : ∀ k ∈ some e.key, e.sequence ≤ s ∧ ∀ e' ∈ entries, k ≤ e'.key := by
      rintro _ ⟨⟩
      exact ⟨hse, hfst⟩
    obtain ⟨hkeys, hbehind⟩ := ih hsort hle hnext
    have hafter : ∀ k ∈ lastUserKey, ∀ e' ∈ kept isBase s (some e.key) e.sequence entries,
        k < e'.key :=
      fun k hk e' he' => ((hlast k hk).2 e mem_cons_self).trans_lt (hbehind e.key rfl e' he')
    rw [kept]
    split_ifs with hdrop
    · exact ⟨hkeys, hafter⟩
    · refine ⟨pairwise_cons.mpr ⟨fun e' he' => hbehind e.key rfl e' he', hkeys⟩, fun k hk => ?_⟩
      refine forall_mem_cons.mpr ⟨lt_of_le_of_ne ((hlast k hk).2 e mem_cons_self) ?_, hafter k hk⟩
      -- An entry of the same key as the one before it is dropped.
      rintro rfl
      refine hdrop ?_
      simp [dropsEntry, Option.mem_def.mp hk, (hlast e.key hk).1]

namespace Lsm

/-- The entries that a level below level 0 has of a user key are in one file. -/
def Whole (v : Version) (contents : ℕ → List Entry) : Prop :=
  ∀ level, 0 < level → ∀ f ∈ v.files level, ∀ g ∈ v.files level,
    ∀ a ∈ contents f.number, ∀ b ∈ contents g.number, a.key = b.key → f = g

variable {v : Version} {contents : ℕ → List Entry} {next level : ℕ} {f g : FileMetaData}
  {x : Compaction} {a b : Entry} {sizing : Sizing} {gaps : ℕ → ℕ} {st : Lsm bytewiseComparator}
  {flushed rotated : ℕ}

section

variable (h : LevelsOk v contents next) (hw : Whole v contents)
include h hw

theorem not_tears_of_whole {inputs : List FileMetaData} (hins : inputs ⊆ v.files level) :
    v.tears level inputs = false := by
  rw [Version.tears, Bool.and_eq_false_iff]
  rcases Nat.eq_zero_or_pos level with rfl | hpos
  · exact .inl rfl
  · refine .inr (any_eq_false.mpr fun f hf => ?_)
    rw [Bool.not_eq_true, any_eq_false]
    intro g hg
    simp only [Bool.and_eq_true, Bool.not_eq_true', FileMetaData.continues, beq_iff_eq, not_and]
    intro hnot heq
    obtain ⟨a, ha, hlarge⟩ := (h.files level f (hins hf)).exists_largest
    obtain ⟨b, hb, hsmall⟩ := (h.files level g hg).exists_smallest
    have hkey : a.key = b.key := by
      rw [Entry.key, Entry.key, hlarge, hsmall]
      exact heq
    have hfg := hw level hpos f (hins hf) g hg a ha b hb hkey
    rw [← hfg] at hnot
    exact absurd (contains_iff_mem.mpr hf) (by rw [hnot]; exact Bool.false_ne_true)

/-- In a version with whole keys no compaction tears a key. -/
theorem tearsKey_of_whole (hx : x.IsPicked v) : x.tearsKey = false := by
  rw [Compaction.tearsKey, hx.inputVersion, not_tears_of_whole h hw hx.inputs0.sublist.subset,
    not_tears_of_whole h hw fun f hf => (hx.overlap hf).1]
  rfl

/-- A key of the inputs is in no other file of the output level. -/
theorem LevelsOk.key_ne_of_whole (hx : x.IsPicked v) (hf : f ∈ x.inputs0 ++ x.inputs1)
    (hg : g ∈ v.files (x.level + 1)) (hnot : g ∉ x.inputs1) (ha : a ∈ contents f.number)
    (hb : b ∈ contents g.number) :
    a.key ≠ b.key := by
  intro hkey
  rcases mem_append.mp hf with hf | hf
  · exact h.key_ne_of_outside hx hf ha hg hb (hx.not_overlap hg hnot) hkey.symm
  · have hfg := hw _ x.level.succ_pos f (hx.overlap hf).1 g hg a ha b hb hkey
    exact hnot (hfg ▸ hf)

theorem LevelsOk.whole_trivial (hx : x.IsPicked v) (hinputs0 : x.inputs0 = [f])
    (hinputs1 : x.inputs1 = []) :
    Whole (v.edited bytewiseComparator (trivialEdit x f)) contents := by
  have hputs : Puts v (trivialEdit x f) (x.level + 1) [f] := puts_trivialEdit hx.level_lt
  have hne : ∀ g ∈ v.files (x.level + 1), ∀ a ∈ contents f.number, ∀ b ∈ contents g.number,
      a.key ≠ b.key := fun g hg a ha b hb =>
    h.key_ne_of_whole hw hx (by simp [hinputs0]) hg (by simp [hinputs1]) ha hb
  intro level hpos g hg g' hg' a ha b hb hkey
  rcases hputs.mem_files_edited.mp hg with ⟨-, hold, -⟩ | ⟨hlev, hnew⟩
  · rcases hputs.mem_files_edited.mp hg' with ⟨-, hold', -⟩ | ⟨rfl, hnew'⟩
    · exact hw level hpos g hold g' hold' a ha b hb hkey
    · rw [mem_singleton.mp hnew'] at hb
      exact absurd hkey.symm (hne g hold b hb a ha)
  · rcases hputs.mem_files_edited.mp hg' with ⟨-, hold', -⟩ | ⟨-, hnew'⟩
    · rw [mem_singleton.mp hnew] at ha
      exact absurd hkey (hne g' (hlev ▸ hold') a ha b hb)
    · rw [mem_singleton.mp hnew, mem_singleton.mp hnew']

end

/-- Without snapshots the tables of a merge have different keys. -/
theorem LevelsOk.keys_merge (h : LevelsOk st.version st.contents st.nextFileNumber)
    (hx : x.IsPicked st.version) (hsnaps : st.snapshots = [])
    (hle : ∀ level, ∀ f ∈ st.version.files level, ∀ e ∈ st.contents f.number,
      e.sequence ≤ st.lastSequence) :
    (st.merge sizing gaps x).tables.Pairwise fun t u =>
      ∀ a ∈ t.entries, ∀ b ∈ u.entries, a.key < b.key := by
  have hsmall : st.smallestSnapshotSequence = st.lastSequence := by
    rw [smallestSnapshotSequence, hsnaps]
    rfl
  have hkeys := (@pairwise_kept (x.isBaseLevelForKey bytewiseComparator) st.lastSequence
    (x.entries bytewiseComparator st.contents)
    ((h.sorted_entries hx).imp fun hlt => userKey_le_of_ikOrd_le hlt.le) (fun e he => ?_) none
    (2 ^ 64 - 1) (fun k hk => by cases hk)).1
  · rw [← hsmall, ← (tables_mergeEntries sizing gaps _ _ st.nextFileNumber _).2] at hkeys
    exact (pairwise_flatMap.mp hkeys).2
  · obtain ⟨f, hf, hmem⟩ := mem_entries.mp he
    obtain ⟨level, hlev⟩ := LevelsOk.mem_files_of_mem_inputs hx hf
    exact hle level f hlev e hmem

theorem LevelsOk.whole_merge (h : LevelsOk st.version st.contents st.nextFileNumber)
    (hw : Whole st.version st.contents) (hx : x.IsPicked st.version)
    (hsnaps : st.snapshots = [])
    (hle : ∀ level, ∀ f ∈ st.version.files level, ∀ e ∈ st.contents f.number,
      e.sequence ≤ st.lastSequence) :
    Whole (st.version.edited bytewiseComparator
        (mergeEdit sizing x (st.merge sizing gaps x).tables))
      (writeTables st.contents (st.merge sizing gaps x).tables) := by
  have hne : ∀ t ∈ (st.merge sizing gaps x).tables, ∀ a ∈ t.entries,
    ∀ g ∈ st.version.files (x.level + 1),
      ¬ (mergeEdit sizing x (st.merge sizing gaps x).tables).DeletesAt (x.level + 1) g.number →
      ∀ b ∈ st.contents g.number, a.key ≠ b.key := by
    intro t ht a ha g hg hdel b hb
    obtain ⟨f, hf, hmem⟩ := (h.tables_merge hx sizing gaps).2.1 t ht a ha
    exact h.key_ne_of_whole hw hx hf hg
      (fun hin => ((h.left_iff_merge hx hg).mp hdel).2 ⟨rfl, hin⟩) hmem hb
  intro level hpos g hg g' hg' a ha b hb hkey
  rcases (h.mem_contents_merge hx hg).mp ha with ⟨-, hold, hdel, ha⟩ | ⟨hlev, t, ht, hmeta, ha⟩
  · rcases (h.mem_contents_merge hx hg').mp hb with ⟨-, hold', -, hb⟩ | ⟨rfl, u, hu, -, hb⟩
    · exact hw level hpos g hold g' hold' a ha b hb hkey
    · exact absurd hkey.symm (hne u hu b hb g hold hdel a ha)
  · rcases (h.mem_contents_merge hx hg').mp hb with ⟨-, hold', hdel', hb⟩ | ⟨-, u, hu, hmeta', hb⟩
    · subst hlev
      exact absurd hkey (hne t ht a ha g' hold' hdel' b hb)
    · have htu : t = u := by
        by_contra hne
        have hsymm : Std.Symm fun t u : TableOutput =>
            ∀ a ∈ t.entries, ∀ b ∈ u.entries, a.key ≠ b.key :=
          ⟨fun _ _ hne b hb a ha => (hne a ha b hb).symm⟩
        have hkeys : (st.merge sizing gaps x).tables.Pairwise fun t u =>
            ∀ a ∈ t.entries, ∀ b ∈ u.entries, a.key ≠ b.key :=
          (h.keys_merge hx hsnaps hle).imp fun hlt a ha b hb => (hlt a ha b hb).ne
        exact hkeys.forall ht hu hne a ha b hb hkey
      rw [← hmeta, ← hmeta', htu]

/-- A table on top keeps the keys whole: no file of its level has a key in its range. -/
theorem Tops.whole {edit : VersionEdit} {out : ℕ} {contents' : ℕ → List Entry}
    {added : FileMetaData} (h : Tops v contents edit out [added] contents')
    (hfiles : ∀ level, ∀ f ∈ v.files level, FileOk (contents f.number) f) (hw : Whole v contents) :
    Whole (v.edited bytewiseComparator edit) contents' := by
  intro level hpos f hf g hg a ha b hb hkey
  rcases h.mem_files.mp hf with ⟨hlev, hf⟩ | ⟨hout, hf⟩ <;>
    rcases h.mem_files.mp hg with ⟨hlev', hg⟩ | ⟨hout', hg⟩
  · rw [h.unchanged level hlev _ ‹_›] at ha hb
    exact hw level hpos f hf g hg a ha b hb hkey
  · rw [h.unchanged level hlev f hf] at ha
    exact absurd hkey (h.key_ne (hout' ▸ hpos) hg hout'.le hf (hfiles level f hf) ha hb)
  · rw [h.unchanged level hlev' g hg] at hb
    exact absurd hkey.symm (h.key_ne (hout ▸ hpos) hf hout.le hg (hfiles level g hg) hb ha)
  · rw [mem_singleton.mp hf, mem_singleton.mp hg]

theorem Inv.whole_flush (h : Inv st flushed rotated) (hw : Whole st.version st.contents) :
    Whole (st.flush sizing).version (st.flush sizing).contents := by
  rcases flush_cases sizing st with
    ⟨-, heq⟩ | ⟨m, -, -, heq⟩ | ⟨m, first, last, himm, hfst, hlast, heq⟩
  · rwa [heq]
  · rwa [heq]
  · rw [heq]
    exact (h.tops_flush himm hfst hlast).whole h.levels.files hw

/-! ### What a read sees of a run -/

/-- `get` without a snapshot. -/
def read (st : Lsm bytewiseComparator) (key : Bytes) : Result (Option Bytes) :=
  st.view.get (lookupIn st.contents) none key

/-- `get` at a snapshot. -/
def readAt (st : Lsm bytewiseComparator) (s : ℕ) (key : Bytes) : Result (Option Bytes) :=
  st.view.get (lookupIn st.contents) (some s) key

/-- What a write leaves of its key. -/
def written : ValueType → Bytes → Option Bytes
  | .value, value => some value
  | .deletion, _ => none

/-- What the last write to a key has left of it. -/
def lastWrite (key : Bytes) (actions : List Action) : Option Bytes :=
  actions.foldl (fun r action =>
    match action with
    | .write valueType key' value => if key' = key then written valueType value else r
    | _ => r) none

/-- The steps that assign a sequence number. -/
def Action.isWrite : Action → Bool
  | .write _ _ _ => true
  | _ => false

/-- The action takes no snapshot. -/
def Action.Unpinned : Action → Prop
  | .snapshot => False
  | _ => True

/-- What holds in the states of a run without snapshots. -/
structure MapInv (st : Lsm bytewiseComparator) (flushed rotated : ℕ) : Prop
    extends ReadInv st flushed rotated where
  whole : Whole st.version st.contents
  unpinned : st.snapshots = []

theorem MapInv.sequence_le (h : MapInv st flushed rotated) :
    ∀ level, ∀ f ∈ st.version.files level, ∀ e ∈ st.contents f.number,
      e.sequence ≤ st.lastSequence := fun level f hf e he =>
  (h.tables level f hf e he).trans (h.flushed_le.trans h.rotated_le)

theorem MapInv.keepsKeys (h : MapInv st flushed rotated) (action : Action) :
    st.KeepsKeys action := by
  unfold KeepsKeys
  split
  · exact fun x hx => tearsKey_of_whole h.levels h.whole (isPicked_pickedBy h.levels hx)
  · trivial

theorem MapInv.doCompactionWork (h : MapInv st flushed rotated) (hx : x.IsPicked st.version) :
    Whole (st.doCompactionWork sizing gaps x).version
      (st.doCompactionWork sizing gaps x).contents := by
  rcases doCompactionWork_cases sizing gaps st x with ⟨f, hinputs0, hinputs1, heq⟩ | heq
  · rw [heq]
    exact h.levels.whole_trivial h.whole hx hinputs0 hinputs1
  · rw [heq]
    exact h.levels.whole_merge h.whole hx h.unpinned h.sequence_le

theorem MapInv.unpinned_step (h : MapInv st flushed rotated) {action : Action}
    (hact : action.Unpinned) : (Lsm.step sizing st action).snapshots = [] := by
  cases action with
  | write valueType key value =>
    rw [Lsm.step]
    split_ifs <;> exact h.unpinned
  | rotate =>
    rw [Lsm.step]
    split_ifs <;> exact h.unpinned
  | flush => exact (frame_flush sizing st).2.trans h.unpinned
  | snapshot => exact hact.elim
  | release s =>
    rw [Lsm.step, h.unpinned]
    rfl
  | allocate => exact h.unpinned
  | compact pick gaps succeeds =>
    exact (frame_compact sizing st pick gaps succeeds).2.trans h.unpinned

/-- **One step keeps the keys whole.** -/
theorem MapInv.step (h : MapInv st flushed rotated) {action : Action} (hact : action.Unpinned) :
    ∃ flushed' rotated', MapInv (step sizing st action) flushed' rotated' := by
  obtain ⟨flushed', rotated', hread⟩ :=
    @ReadInv.step sizing st flushed rotated h.toReadInv action (h.keepsKeys action)
  refine ⟨flushed', rotated', hread, tables_step h.whole (h.toInv.whole_flush h.whole) ?_,
    h.unpinned_step hact⟩
  rintro pick gaps x - hx
  have hpick := isPicked_pickedBy h.levels hx
  have hptr : MapInv (st.movePointer x) flushed rotated := { h with }
  exact hptr.doCompactionWork hpick

section

variable (h : ReadInv st flushed rotated)
include h

theorem ReadInv.store_le : ∀ e ∈ st.view.store st.contents, e.sequence ≤ st.lastSequence := by
  have hflushed := h.flushed_le
  have hrot := h.rotated_le
  rintro e (he | ⟨m, hm, he⟩ | ⟨level, -, f, hf, he⟩)
  · exact (h.mem.range e he).2
  · exact ((h.imm m hm).range e he).2.trans hrot
  · exact (h.tables level f hf e he).trans (hflushed.trans hrot)

/-- **A read returns the latest of the store.** -/
theorem ReadInv.read_eq_iff {k : Bytes} {r : Option Bytes} :
    st.read k = .ok r ↔
      ReadsLatest Entry.key Entry.sequence Entry.live (st.view.store st.contents) k r := by
  obtain ⟨o, ho, hget⟩ := h.ordered.get_spec h.lastSequence_le k
  have hlat : ReadsLatest Entry.key Entry.sequence Entry.live (st.view.store st.contents) k
      (o.bind Entry.live) := Reads.latest h.store_le ⟨o, ho, rfl⟩
  have hread : st.read k = .ok (o.bind Entry.live) := hget
  rw [hread, Except.ok.injEq]
  exact ⟨fun heq => heq ▸ hlat, fun hr => hlat.unique h.layersOrdered.unique hr⟩

/-! ### Every run -/

omit h in
theorem lastWrite_concat (k : Bytes) (actions : List Action) (action : Action) :
    lastWrite k (actions ++ [action]) =
      match action with
      | .write valueType key value =>
        if key = k then written valueType value else lastWrite k actions
      | _ => lastWrite k actions := by
  rw [lastWrite, foldl_concat, ← lastWrite]

omit h in
private theorem live_write (s : ℕ) (hs : s ≤ maxSequenceNumber) (valueType : ValueType)
    (key value : Bytes) :
    Entry.live ⟨internalKey key s valueType, value⟩ = written valueType value := by
  rw [Entry.live, keyTypeByte_internalKey hs]
  cases valueType <;> rfl

/-- A write adds its entry to the store. -/
theorem ReadInv.read_write {k : Bytes} {r : Option Bytes} (hread : st.read k = .ok r)
    (hmax : st.lastSequence < maxSequenceNumber) (valueType : ValueType) (key value : Bytes) :
    (Lsm.step sizing st (.write valueType key value)).read k =
      .ok (if key = k then written valueType value else r) := by
  obtain ⟨flushed', rotated', hinv⟩ :=
    @ReadInv.step sizing st flushed rotated h (.write valueType key value) trivial
  rw [hinv.read_eq_iff]
  rw [h.read_eq_iff] at hread
  have hstep : Lsm.step sizing st (.write valueType key value) = { st with
      mem := (st.mem.add (st.lastSequence + 1) valueType key value).2
      lastSequence := st.lastSequence + 1 } := if_pos hmax
  have hstore : (Lsm.step sizing st (.write valueType key value)).view.store
      (Lsm.step sizing st (.write valueType key value)).contents =
      insert ⟨internalKey key (st.lastSequence + 1) valueType, value⟩
        (st.view.store st.contents) := by
    rw [hstep, ReadView.store, ReadView.store, ← Set.insert_union]
    refine congrArg (· ∪ _) (Set.ext fun e => ?_)
    exact MemTable.mem_insert
  have hkey : Entry.key ⟨internalKey key (st.lastSequence + 1) valueType, value⟩ = key :=
    userKey_internalKey _ _ _
  have hseq : Entry.sequence ⟨internalKey key (st.lastSequence + 1) valueType, value⟩ =
      st.lastSequence + 1 := keySequence_internalKey hmax key valueType
  rw [hstore]
  refine ReadsLatest.insert (fun e he => ?_) (fun hne => ?_) fun heq => ?_
  · rw [hseq]
    exact Nat.lt_succ_of_le (h.store_le e he)
  · rwa [if_neg (hkey ▸ hne)]
  · rw [if_pos (hkey ▸ heq), live_write _ hmax]

/-- **No other step changes a read**, as long as the reader's snapshot is live or new. -/
theorem ReadInv.readAt_of_not_write {s : ℕ} (hs : st.Readable s) {action : Action}
    (hkeeps : st.KeepsKeys action) (hother : action.isWrite = false) (k : Bytes) :
    (Lsm.step sizing st action).readAt s k = st.readAt s k := by
  cases action with
  | write => cases hother
  | rotate =>
    obtain ⟨flushed', rotated', h'⟩ := @ReadInv.step sizing _ _ _ h .rotate trivial
    refine h.ordered.get_congr h'.ordered ?_ hs.1 k
    rw [Lsm.step]
    split_ifs with hnone
    · ext e
      simp [ReadView.store, ReadView.memStore, ReadView.immStore, view, storeOf,
        Option.isNone_iff_eq_none.mp hnone]
    · rfl
  | flush => exact h.ordered.get_flush hs.1 k
  | snapshot => rfl
  | release s => rfl
  | allocate => rfl
  | compact pick gaps succeeds =>
    rw [Lsm.step, compact]
    rcases hx : st.pickedBy pick with _ | x
    · rfl
    · have hpick := isPicked_pickedBy h.levels hx
      have hptr : ReadInv (st.movePointer x) flushed rotated := { h with }
      cases succeeds with
      | false => rfl
      | true =>
        have hget := (@ReadInv.doCompactionWork x sizing gaps _ _ _ hptr hpick
          (hkeeps x hx)).2 k s hs
        change (Lsm.doCompactionWork sizing gaps (st.movePointer x) x).readAt s k = st.readAt s k
        rcases doCompactionWork_cases sizing gaps (st.movePointer x) x with ⟨f, -, -, heq⟩ | heq <;>
        · rw [heq] at hget ⊢
          exact ReadView.get_congr (some s) rfl rfl hget

end

/-- Only a write takes a sequence number. -/
theorem lastSequence_step {action : Action}
    (hmax : action.isWrite = true → st.lastSequence < maxSequenceNumber) :
    (Lsm.step sizing st action).lastSequence =
      st.lastSequence + if action.isWrite then 1 else 0 := by
  cases action with
  | write valueType key value =>
    rw [Lsm.step, if_pos (hmax rfl)]
    rfl
  | rotate =>
    rw [Lsm.step]
    split <;> rfl
  | flush => exact (frame_flush sizing st).1
  | snapshot => rfl
  | release s => rfl
  | allocate => rfl
  | compact pick gaps succeeds =>
    exact (frame_compact sizing st pick gaps succeeds).1

/-- Only a write changes what is read. -/
theorem MapInv.read_step (h : MapInv st flushed rotated) {action : Action}
    (hmax : action.isWrite = true → st.lastSequence < maxSequenceNumber)
    {actions : List Action} {k : Bytes} (hread : st.read k = .ok (lastWrite k actions)) :
    (Lsm.step sizing st action).read k = .ok (lastWrite k (actions ++ [action])) := by
  rw [lastWrite_concat]
  cases hact : action.isWrite with
  | false =>
    have hlast := @lastSequence_step sizing st action hmax
    have hsame := @ReadInv.readAt_of_not_write sizing st flushed rotated h.toReadInv
      st.lastSequence ⟨h.lastSequence_le, .inr le_rfl⟩ action (h.keepsKeys action) hact k
    rw [hact] at hlast
    have hread' : (Lsm.step sizing st action).read k = st.read k :=
      (congrArg (fun s => (Lsm.step sizing st action).readAt s k) hlast).trans hsame
    cases action with
    | write => cases hact
    | _ => exact hread'.trans hread
  | true =>
    cases action with
    | write valueType key value =>
      exact h.toReadInv.read_write hread (hmax hact) valueType key value
    | _ => cases hact

theorem mapInv_empty : MapInv {} 0 0 :=
  { inv_empty with
    recent := ⟨fun _ hf => absurd hf not_mem_nil, fun _ _ hf => absurd hf not_mem_nil⟩
    snapshots := fun _ hs => absurd hs not_mem_nil
    whole := fun _ _ _ hf => absurd hf not_mem_nil
    unpinned := rfl }

/-- **The tree is a map.** After every run without snapshots a key reads as the last write to it has
left it. -/
theorem read_run {actions : List Action} (hactions : ∀ action ∈ actions, action.Unpinned)
    (hwrites : actions.countP Action.isWrite ≤ maxSequenceNumber) :
    (∃ flushed rotated, MapInv (Runs.run (step sizing) empty actions) flushed rotated) ∧
      (Runs.run (step sizing) empty actions).lastSequence = actions.countP Action.isWrite ∧
      ∀ k, (Runs.run (step sizing) empty actions).read k = .ok (lastWrite k actions) := by
  induction actions using List.reverseRecOn with
  | nil => exact ⟨⟨0, 0, mapInv_empty⟩, rfl, fun k => rfl⟩
  | append_singleton actions action ih =>
    rw [countP_append, countP_singleton] at hwrites ⊢
    obtain ⟨hactions, hact⟩ := forall_mem_append.mp hactions
    obtain ⟨⟨flushed, rotated, h⟩, hlast, hread⟩ :=
      ih hactions ((Nat.le_add_right _ _).trans hwrites)
    have hmax : action.isWrite = true →
        (Runs.run (step sizing) empty actions).lastSequence < maxSequenceNumber := by
      intro hwrite
      rw [if_pos hwrite] at hwrites
      rw [hlast]
      exact hwrites
    rw [Runs.run_concat]
    refine ⟨h.step (hact action mem_cons_self), ?_, fun k => h.read_step hmax (hread k)⟩
    rw [lastSequence_step hmax, hlast]

/-! ### Reads at a snapshot -/

section

variable {s : ℕ} {k : Bytes} (h : ReadInv st flushed rotated) (hs : s ∈ st.snapshots)
include h hs

theorem ReadInv.readable : st.Readable s := ⟨(h.snapshots s hs).trans h.lastSequence_le, .inl hs⟩

/-- A write has a larger sequence number than every snapshot. -/
theorem ReadInv.readAt_write {valueType : ValueType} {key value : Bytes} :
    (Lsm.step sizing st (.write valueType key value)).readAt s k = st.readAt s k := by
  by_cases hmax : st.lastSequence < maxSequenceNumber
  · obtain ⟨flushed', rotated', h'⟩ :=
      @ReadInv.step sizing _ _ _ h (.write valueType key value) trivial
    rw [Lsm.step, if_pos hmax] at h' ⊢
    obtain ⟨o, ho, hget⟩ := h.ordered.get_spec (h.readable hs).1 k
    obtain ⟨o', ho', hget'⟩ := h'.ordered.get_spec (h.readable hs).1 k
    have hnew : Hidden Entry.key Entry.sequence
        {⟨internalKey key (st.lastSequence + 1) valueType, value⟩} k s := by
      rintro e rfl -
      rw [Entry.sequence, keySequence_internalKey hmax, not_le]
      exact Nat.lt_succ_of_le (h.snapshots s hs)
    have hunion := ho.union_hidden hnew
    have hmem : storeOf (st.mem.add (st.lastSequence + 1) valueType key value).2.entries =
        insert _ st.view.memStore := Set.ext fun e => MemTable.mem_insert
    rw [ReadView.store, ← Set.insert_eq, ← Set.insert_union, ← hmem] at hunion
    rw [readAt, readAt, hget, hget', hunion.unique h'.layersOrdered.unique ho']
  · rw [Lsm.step, if_neg hmax]

/-- **One step keeps the reads at a live snapshot.** -/
theorem ReadInv.readAt_step {action : Action} (hkeeps : st.KeepsKeys action) :
    (Lsm.step sizing st action).readAt s k = st.readAt s k := by
  cases hact : action.isWrite with
  | false => exact h.readAt_of_not_write (h.readable hs) hkeeps hact k
  | true =>
    cases action with
    | write valueType key value => exact h.readAt_write hs
    | _ => cases hact

end

/-- **Snapshot isolation.** In a run that tears no key, a snapshot reads as long as it is live what
was read when it was taken. -/
theorem readAt_snapshot {before after : List Action} {s : ℕ} {k : Bytes}
    (hbefore : Runs.Along (step sizing) KeepsKeys empty before)
    (hs : (Runs.run (step sizing) empty before).lastSequence = s)
    (hafter : Runs.Along (step sizing) (fun st action => st.KeepsKeys action ∧ s ∈ st.snapshots)
      (step sizing (Runs.run (step sizing) empty before) .snapshot) after) :
    (Runs.run (step sizing) empty (before ++ .snapshot :: after)).readAt s k =
      (Runs.run (step sizing) empty before).read k := by
  obtain ⟨flushed, rotated, h⟩ := readInv_run hbefore
  rw [Runs.run_append]
  refine (Runs.invariant (I := fun st => (∃ flushed rotated, ReadInv st flushed rotated) ∧
    st.readAt s k = (Runs.run (step sizing) empty before).read k) ?_
    ⟨@ReadInv.step sizing _ _ _ h .snapshot trivial, ?_⟩ hafter).2
  · rintro st action ⟨⟨flushed, rotated, h⟩, hread⟩ ⟨hkeeps, hlive⟩
    exact ⟨h.step hkeeps, (h.readAt_step hlive hkeeps).trans hread⟩
  · rw [← hs]
    rfl

/-- The snapshot is taken between the two writes, and their tables are merged under it. -/
theorem readAt_rewritten :
    (Runs.run (step tornSizing) empty (rewritten.take 3 ++ .snapshot :: (rewritten.drop 3 ++
      [.flush, .compact (.manual 1 none none) (fun _ => 0) true]))).readAt 1 [107] =
      .ok (some [1]) :=
  (readAt_snapshot (by decide +kernel) (by decide +kernel) (by decide +kernel)).trans
    (by decide +kernel)

end Lsm
end PulsearcDb
