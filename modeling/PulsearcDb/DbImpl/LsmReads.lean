import PulsearcDb.DbImpl.TopTables

/-!
# What reads see of a compaction

A read asks the levels from the top and trusts that a level is newer than the deeper ones. A
compaction keeps that order only if it does not tear a user key apart. The entries of one user key
may be split over two adjacent files of a level, the newer ones in the first file. When a compaction
takes the first file and not the second, the newer entries sink below the older ones; when it drops
a tombstone in the first file, the older entries in the second one come back.

`Compaction.tearsKey` says that a compaction does so. In a run without such a compaction every
compaction preserves every read at a snapshot that is live or taken later. The last section has a
run in which a compaction tears a key and changes a read.
-/

namespace PulsearcDb

open Recency List

/-- The second file, behind the first one, starts with the user key with which the first
one ends. -/
def FileMetaData.continues (f g : FileMetaData) : Bool :=
  f.limit == g.start && icmp bytewiseComparator f.largest g.smallest == .lt

/-- Some file of the level that is not among the inputs continues the last user key of an input. -/
def Version.tears (v : Version) (level : ℕ) (inputs : List FileMetaData) : Bool :=
  level != 0 && inputs.any fun f => (v.files level).any fun g => !inputs.contains g && f.continues g

/-- A user key of the inputs continues in a file of the same level that is left behind. -/
def Compaction.tearsKey (x : Compaction) : Bool :=
  x.inputVersion.tears x.level x.inputs0 || x.inputVersion.tears (x.level + 1) x.inputs1

namespace Lsm

/-- Every compaction that is carried out leaves no part of a user key behind. -/
def KeepsKeys (st : Lsm bytewiseComparator) : Action → Prop
  | .compact pick _ true => ∀ x ∈ st.pickedBy pick, x.tearsKey = false
  | _ => True

/-- A snapshot that is live, or may be taken later: sequence numbers only grow. -/
def Readable (st : Lsm bytewiseComparator) (s : ℕ) : Prop :=
  s ≤ maxSequenceNumber ∧ (s ∈ st.snapshots ∨ st.lastSequence ≤ s)

instance (st : Lsm bytewiseComparator) (action : Action) : Decidable (st.KeepsKeys action) := by
  unfold KeepsKeys
  split <;> infer_instance

/-- `Version::get` on the current version. -/
def get (st : Lsm bytewiseComparator) (key : Bytes) (s : ℕ) : Result (Option Bytes) :=
  st.version.get bytewiseComparator key (lookupKey key s) (lookupIn st.contents)

/-! ### The order of the levels -/

/-- A level is newer than the deeper ones, and in level 0 the file with the larger number
is newer. -/
structure Recent (v : Version) (contents : ℕ → List Entry) : Prop where
  level0 : ∀ f ∈ v.files 0, ∀ g ∈ v.files 0, g.number < f.number →
    ∀ a ∈ contents f.number, ∀ b ∈ contents g.number, a.key = b.key → b.sequence < a.sequence
  levels : ∀ upper, ∀ f ∈ v.files upper, ∀ level, upper < level → ∀ g ∈ v.files level,
    ∀ a ∈ contents f.number, ∀ b ∈ contents g.number, a.key = b.key → b.sequence < a.sequence

variable {v : Version} {contents : ℕ → List Entry} {next level : ℕ} {f g : FileMetaData}
  {x : Compaction} {a b : Entry}

section

variable (h : LevelsOk v contents next)
include h

theorem LevelsOk.searchOrder (hrecent : Recent v contents) : SearchOrder v contents where
  files level _ f hf := h.files level f hf
  level0 f hf g hg hlt a ha b hb hkey := hrecent.level0 f hf g hg hlt a ha b hb hkey
  levels level _ upper hlt := by
    rintro a ⟨f, hf, ha⟩ b ⟨g, hg, hb⟩ hkey
    exact hrecent.levels upper f hf level hlt g hg a ha b hb hkey
  sorted level _ hpos := h.sorted level hpos

omit h in
theorem recent_of_searchOrder (h : SearchOrder v contents)
    (hbounded : ∀ level, numLevels ≤ level → v.files level = []) : Recent v contents where
  level0 f hf g hg hlt a ha b hb hkey := h.level0 f hf g hg hlt a ha b hb hkey
  levels upper f hf level hlt g hg a ha b hb hkey := by
    have hlev : level < numLevels := by
      by_contra hle
      rw [hbounded level (not_lt.mp hle)] at hg
      cases hg
    exact h.levels level hlev upper hlt a ⟨f, hf, ha⟩ b ⟨g, hg, hb⟩ hkey

theorem LevelsOk.onePerSequence : OnePerSequence Entry.key Entry.sequence (v.store contents) := by
  rintro a ⟨level, -, f, hf, ha⟩ b ⟨level', -, g, hg, hb⟩ hkey hseq
  exact (h.distinct level f hf level' g hg a ha b hb hkey hseq).2

omit h in
theorem not_continues_of_not_tears {inputs : List FileMetaData} (hlev : level ≠ 0)
    (h : v.tears level inputs = false) (hf : f ∈ inputs) (hg : g ∈ v.files level)
    (hnot : g ∉ inputs) : f.continues g = false := by
  by_contra hcontinues
  rw [Bool.not_eq_false] at hcontinues
  refine Bool.eq_false_iff.mp h ?_
  simp only [Version.tears, Bool.and_eq_true, bne_iff_ne, any_eq_true]
  exact ⟨hlev, f, hf, g, hg, by simpa using hnot, hcontinues⟩

/-- **Among two files of a level, the one that does not continue the other has the
newer entries.** -/
theorem LevelsOk.newer_of_not_continues (hlev : 0 < level)
    (hf : f ∈ v.files level) (hg : g ∈ v.files level) (hne : f ≠ g) (hnot : f.continues g = false)
    (hb : b ∈ contents f.number) (ha : a ∈ contents g.number) (hkey : a.key = b.key) :
    b.sequence < a.sequence := by
  have hok := h.files level f hf
  have hok' := h.files level g hg
  rcases h.apart hlev hf hg hne with hlt | hlt
  · -- `f` lies before `g`, so the common key is the last one of `f` and the first one of `g`.
    have hle : f.limit ≤ g.start := userKey_le_of_ikOrd_le hlt.le
    have hstart : g.start ≤ f.limit :=
      (hok'.smallest_le_key ha).trans (hkey.le.trans (hok.key_le_largest hb))
    refine absurd hnot (Bool.not_eq_false _ ▸ ?_)
    rw [FileMetaData.continues, Bool.and_eq_true, beq_iff_eq, beq_iff_eq, icmp_bytewise_eq_lt]
    exact ⟨le_antisymm hle hstart, hlt⟩
  · have hab : ikOrd a.ik < ikOrd b.ik :=
      ((hok'.le_largest ha).trans_lt hlt).trans_le (hok.smallest_le hb)
    refine lt_of_le_of_ne (Entry.sequence_le_of_ikOrd_le hkey hab.le) fun hseq => ?_
    exact absurd (h.distinct level g hg level f hf a ha b hb hkey hseq.symm).2
      fun heq => lt_irrefl _ (heq ▸ hab)

/-! ### The files that a compaction leaves behind -/

/-- The file of the level is not an input of the compaction. -/
def Left (x : Compaction) (level : ℕ) (g : FileMetaData) : Prop :=
  ¬ (level = x.level ∧ g ∈ x.inputs0) ∧ ¬ (level = x.level + 1 ∧ g ∈ x.inputs1)

/-- A file outside the range of the inputs shares no key with them. -/
theorem LevelsOk.key_ne_of_outside (hx : x.IsPicked v) (hf : f ∈ x.inputs0)
    (hb : b ∈ contents f.number) (hg : g ∈ v.files level) (ha : a ∈ contents g.number)
    (hout : g.limit < (getUserRange x.inputs0).1 ∨ (getUserRange x.inputs0).2 < g.start) :
    a.key ≠ b.key := by
  have hrange := (getUserRange_spec hx.inputs0.ne_nil).1 f hf
  have hokf := h.files _ f (hx.inputs0.sublist.subset hf)
  have hokg := h.files level g hg
  intro hkey
  rcases hout with hlt | hlt
  · have hle : (getUserRange x.inputs0).1 ≤ b.key := hrange.1.trans (hokf.smallest_le_key hb)
    exact absurd (hkey ▸ hokg.key_le_largest ha) (not_le.mpr (hlt.trans_le hle))
  · have hle : b.key ≤ (getUserRange x.inputs0).2 := (hokf.key_le_largest hb).trans hrange.2
    exact absurd (hkey ▸ hokg.smallest_le_key ha) (not_le.mpr (hle.trans_lt hlt))

/-- **What is left behind, down to the output level, is newer than the inputs.** -/
theorem LevelsOk.newer_left (hrecent : Recent v contents)
    (hx : x.IsPicked v) (htears : x.tearsKey = false) (hf : f ∈ x.inputs0 ++ x.inputs1)
    (hb : b ∈ contents f.number) (hg : g ∈ v.files level) (hlev : level ≤ x.level + 1)
    (hleft : Left x level g) (ha : a ∈ contents g.number) (hkey : a.key = b.key) :
    b.sequence < a.sequence := by
  rw [Compaction.tearsKey, hx.inputVersion, Bool.or_eq_false_iff] at htears
  rcases mem_append.mp hf with hf | hf
  · have hmem := hx.inputs0.sublist.subset hf
    rcases lt_trichotomy level x.level with hlt | rfl | hgt
    · exact hrecent.levels level g hg x.level hlt f hmem a ha b hb hkey
    · have hnot : g ∉ x.inputs0 := fun hmem => hleft.1 ⟨rfl, hmem⟩
      by_cases h0 : x.level = 0
      · rw [h0] at hg
        exact absurd hkey (h.key_ne_of_outside hx hf hb hg ha (hx.inputs0.closed h0 g hg hnot))
      · exact h.newer_of_not_continues (Nat.pos_of_ne_zero h0) hmem hg (fun heq => hnot (heq ▸ hf))
          (not_continues_of_not_tears h0 htears.1 hf hg hnot) hb ha hkey
    · obtain rfl : level = x.level + 1 := by omega
      have hnot : g ∉ x.inputs1 := fun hmem => hleft.2 ⟨rfl, hmem⟩
      exact absurd hkey (h.key_ne_of_outside hx hf hb hg ha (hx.not_overlap hg hnot))
  · have hmem := (hx.overlap hf).1
    rcases hlev.lt_or_eq with hlt | rfl
    · exact hrecent.levels level g hg _ hlt f hmem a ha b hb hkey
    · have hnot : g ∉ x.inputs1 := fun hmem => hleft.2 ⟨rfl, hmem⟩
      exact h.newer_of_not_continues x.level.succ_pos hmem hg (fun heq => hnot (heq ▸ hf))
        (not_continues_of_not_tears x.level.succ_ne_zero htears.2 hf hg hnot) hb ha hkey

/-- The entries of a version after a compaction: they were left behind, or they come from the inputs
and are now in the next level. -/
def Sinks (x : Compaction) (v : Version) (contents : ℕ → List Entry) (v' : Version)
    (contents' : ℕ → List Entry) : Prop :=
  ∀ level, ∀ g ∈ v'.files level, ∀ a ∈ contents' g.number,
    (g ∈ v.files level ∧ Left x level g ∧ a ∈ contents g.number) ∨
      (level = x.level + 1 ∧ ∃ f ∈ x.inputs0 ++ x.inputs1, a ∈ contents f.number)

/-- **A compaction that tears no key keeps the order of the levels.** -/
theorem LevelsOk.recent_of_sinks {v' : Version} {contents' : ℕ → List Entry}
    (hrecent : Recent v contents) (hx : x.IsPicked v) (htears : x.tearsKey = false)
    (hsinks : Sinks x v contents v' contents') :
    Recent v' contents' where
  level0 f hf g hg hlt a ha b hb hkey := by
    rcases hsinks 0 f hf a ha with ⟨hf, -, ha⟩ | ⟨hlev, -⟩
    · rcases hsinks 0 g hg b hb with ⟨hg, -, hb⟩ | ⟨hlev, -⟩
      · exact hrecent.level0 f hf g hg hlt a ha b hb hkey
      · omega
    · omega
  levels upper f hf level hlt g hg a ha b hb hkey := by
    rcases hsinks upper f hf a ha with ⟨hf, hleft, ha⟩ | ⟨rfl, f', hf', ha⟩
    · rcases hsinks level g hg b hb with ⟨hg, -, hb⟩ | ⟨rfl, g', hg', hb⟩
      · exact hrecent.levels upper f hf level hlt g hg a ha b hb hkey
      · exact h.newer_left hrecent hx htears hg' hb hf hlt.le hleft ha hkey
    · rcases hsinks level g hg b hb with ⟨hg, -, hb⟩ | ⟨rfl, -⟩
      · rcases mem_append.mp hf' with hf' | hf'
        · exact hrecent.levels _ f' (hx.inputs0.sublist.subset hf') level (by omega) g hg a
            ha b hb hkey
        · exact hrecent.levels _ f' (hx.overlap hf').1 level hlt g hg a ha b hb hkey
      · exact absurd hlt (lt_irrefl _)

end

/-! ### The entries before and after a compaction -/

/-- The entries of the inputs. -/
def inputStore (contents : ℕ → List Entry) (x : Compaction) : Set Entry :=
  {e | ∃ f ∈ x.inputs0 ++ x.inputs1, e ∈ contents f.number}

/-- The entries of the files that are left behind. -/
def leftStore (contents : ℕ → List Entry) (v : Version) (x : Compaction) : Set Entry :=
  {e | ∃ level < numLevels, ∃ g ∈ v.files level, Left x level g ∧ e ∈ contents g.number}

theorem store_eq_union (hx : x.IsPicked v) :
    v.store contents = inputStore contents x ∪ leftStore contents v x := by
  ext e
  constructor
  · rintro ⟨level, hlev, g, hg, he⟩
    by_cases hleft : Left x level g
    · exact .inr ⟨level, hlev, g, hg, hleft, he⟩
    · rw [Left, not_and_or, not_not, not_not] at hleft
      rcases hleft with ⟨-, hmem⟩ | ⟨-, hmem⟩
      · exact .inl ⟨g, mem_append_left _ hmem, he⟩
      · exact .inl ⟨g, mem_append_right _ hmem, he⟩
  · rintro (⟨f, hf, he⟩ | ⟨level, hlev, g, hg, -, he⟩)
    · have hlt := hx.level_lt
      rcases mem_append.mp hf with hf | hf
      · exact ⟨x.level, by omega, f, hx.inputs0.sublist.subset hf, he⟩
      · exact ⟨x.level + 1, hlt, f, (hx.overlap hf).1, he⟩
    · exact ⟨level, hlev, g, hg, he⟩

section Merge

variable {sizing : Sizing} {gaps : ℕ → ℕ} {st : Lsm bytewiseComparator} {tables : List TableOutput}

theorem LevelsOk.left_iff_merge (h : LevelsOk v contents next) (hx : x.IsPicked v)
    (hg : g ∈ v.files level) :
    ¬ (mergeEdit sizing x tables).DeletesAt level g.number ↔ Left x level g := by
  rw [deletesAt_mergeEdit, not_or, Left]
  refine and_congr (not_congr (and_congr_right fun hlev => ?_))
    (not_congr (and_congr_right fun hlev => ?_))
  · refine ⟨fun ⟨f, hf, heq⟩ => ?_, fun hmem => ⟨g, hmem, rfl⟩⟩
    rwa [← (h.unique _ f (hx.inputs0.sublist.subset hf) _ g hg heq).2]
  · refine ⟨fun ⟨f, hf, heq⟩ => ?_, fun hmem => ⟨g, hmem, rfl⟩⟩
    rwa [← (h.unique _ f (hx.overlap hf).1 _ g hg heq).2]

theorem LevelsOk.left_iff_trivial (h : LevelsOk v contents next) (hx : x.IsPicked v)
    (hinputs0 : x.inputs0 = [f]) (hinputs1 : x.inputs1 = []) (hg : g ∈ v.files level) :
    ¬ (trivialEdit x f).DeletesAt level g.number ↔ Left x level g := by
  have hf : f ∈ v.files x.level := hx.inputs0.sublist.subset (by simp [hinputs0])
  rw [deletesAt_trivialEdit, Left, hinputs0, hinputs1]
  simp only [not_mem_nil, and_false, not_false_eq_true, and_true, mem_singleton]
  refine not_congr (and_congr_right fun hlev => ⟨fun heq => ?_, congrArg _⟩)
  exact (h.unique _ f hf _ g hg heq.symm).2.symm

/-- The entries that a merge keeps. -/
def keptStore (st : Lsm bytewiseComparator) (x : Compaction) : Set Entry :=
  storeOf (kept (x.isBaseLevelForKey bytewiseComparator) st.smallestSnapshotSequence none
    (2 ^ 64 - 1) (x.entries bytewiseComparator st.contents))

theorem mem_keptStore {e : Entry} :
    e ∈ keptStore st x ↔ ∃ t ∈ (st.merge sizing gaps x).tables, e ∈ t.entries := by
  rw [keptStore, storeOf, Set.mem_ofPred_eq, merge, Tables.merge,
    ← mem_flatMap, (tables_mergeEntries sizing gaps _ _ _ _).2]

theorem LevelsOk.sinks_merge (h : LevelsOk st.version st.contents st.nextFileNumber)
    (hx : x.IsPicked st.version) :
    Sinks x st.version st.contents
      (st.version.edited bytewiseComparator (mergeEdit sizing x (st.merge sizing gaps x).tables))
      (writeTables st.contents (st.merge sizing gaps x).tables) := by
  intro level g hg a ha
  rcases (h.mem_contents_merge hx hg).mp ha with ⟨-, hold, hdel, ha⟩ | ⟨hlev, t, ht, -, ha⟩
  · exact .inl ⟨hold, (h.left_iff_merge hx hold).mp hdel, ha⟩
  · exact .inr ⟨hlev, (h.tables_merge hx sizing gaps).2.1 t ht a ha⟩

theorem LevelsOk.store_merge (h : LevelsOk st.version st.contents st.nextFileNumber)
    (hx : x.IsPicked st.version) :
    (st.version.edited bytewiseComparator
        (mergeEdit sizing x (st.merge sizing gaps x).tables)).store
        (writeTables st.contents (st.merge sizing gaps x).tables) =
      keptStore st x ∪ leftStore st.contents st.version x := by
  have hok := next_le_merge sizing gaps st x
  have hputs := @LevelsOk.puts_mergeEdit _ _ _ x sizing _ h hx fun t ht => (hok.fresh t ht).1
  ext e
  constructor
  · rintro ⟨level, hlt, g, hg, he⟩
    rcases (h.mem_contents_merge hx hg).mp he with ⟨-, hold, hdel, he⟩ | ⟨-, t, ht, -, he⟩
    · exact .inr ⟨level, hlt, g, hold, (h.left_iff_merge hx hold).mp hdel, he⟩
    · exact .inl (mem_keptStore.mpr ⟨t, ht, he⟩)
  · rintro (he | ⟨level, hlt, g, hg, hleft, he⟩)
    · obtain ⟨t, ht, he⟩ := (@mem_keptStore x sizing gaps st e).mp he
      have hmem := (@Puts.mem_files_edited bytewiseComparator _ _ _ (x.level + 1) _
        (t.metadata sizing) hputs).mpr (.inr ⟨rfl, mem_map_of_mem ht⟩)
      exact ⟨x.level + 1, hx.level_lt, _, hmem,
        (h.mem_contents_merge hx hmem).mpr (.inr ⟨rfl, t, ht, rfl, he⟩)⟩
    · have hdel := (@LevelsOk.left_iff_merge _ _ _ _ _ x sizing (st.merge sizing gaps x).tables
        h hx hg).mpr hleft
      have hmem := (hputs.mem_files_edited (c := bytewiseComparator)).mpr (.inl ⟨hlt, hg, hdel⟩)
      exact ⟨level, hlt, g, hmem, (h.mem_contents_merge hx hmem).mpr (.inl ⟨hlt, hg, hdel, he⟩)⟩

theorem LevelsOk.sinks_trivial (h : LevelsOk v contents next) (hx : x.IsPicked v)
    (hinputs0 : x.inputs0 = [f]) (hinputs1 : x.inputs1 = []) :
    Sinks x v contents (v.edited bytewiseComparator (trivialEdit x f)) contents := by
  intro level g hg a ha
  have hputs : Puts v (trivialEdit x f) (x.level + 1) [f] := puts_trivialEdit hx.level_lt
  rcases hputs.mem_files_edited.mp hg with ⟨-, hold, hdel⟩ | ⟨hlev, hnew⟩
  · exact .inl ⟨hold, (h.left_iff_trivial hx hinputs0 hinputs1 hold).mp hdel, ha⟩
  · rw [mem_singleton.mp hnew] at ha
    exact .inr ⟨hlev, f, by simp [hinputs0], ha⟩

theorem LevelsOk.store_trivial (h : LevelsOk v contents next) (hx : x.IsPicked v)
    (hinputs0 : x.inputs0 = [f]) (hinputs1 : x.inputs1 = []) :
    (v.edited bytewiseComparator (trivialEdit x f)).store contents =
      inputStore contents x ∪ leftStore contents v x := by
  have hputs : Puts v (trivialEdit x f) (x.level + 1) [f] := puts_trivialEdit hx.level_lt
  have hlev := hx.level_lt
  ext e
  constructor
  · rintro ⟨level, hlt, g, hg, he⟩
    rcases h.sinks_trivial hx hinputs0 hinputs1 level g hg e he with ⟨hold, hleft, he⟩ | ⟨-, hinput⟩
    · exact .inr ⟨level, hlt, g, hold, hleft, he⟩
    · exact .inl hinput
  · rintro (⟨g, hg, he⟩ | ⟨level, hlt, g, hg, hleft, he⟩)
    · rw [hinputs0, hinputs1] at hg
      exact ⟨x.level + 1, hlev, g, hputs.mem_files_edited.mpr (.inr ⟨rfl, hg⟩), he⟩
    · have hdel := (h.left_iff_trivial hx hinputs0 hinputs1 hg).mpr hleft
      exact ⟨level, hlt, g, hputs.mem_files_edited.mpr (.inl ⟨hlt, hg, hdel⟩), he⟩

/-! ### Reads -/

theorem not_isBaseLevelForKey (h : LevelsOk v contents next) (hx : x.IsPicked v)
    (hlev : x.level + 2 ≤ level) (hlt : level < numLevels) (hg : g ∈ v.files level)
    (ha : a ∈ contents g.number) : x.isBaseLevelForKey bytewiseComparator a.key = false := by
  have hok := h.files level g hg
  have hcovers : Version.covers bytewiseComparator a.key g = true := by
    rw [Version.covers, Bool.and_eq_true]
    exact ⟨BytewiseComparator.isGE_compare.mpr (hok.smallest_le_key ha),
      BytewiseComparator.isLE_compare.mpr (hok.key_le_largest ha)⟩
  rw [Bool.eq_false_iff, Ne, Compaction.isBaseLevelForKey, all_eq_true]
  intro hall
  have hfiles := hall level (mem_range.mpr hlt)
  rw [Bool.or_eq_true, decide_eq_true_iff, hx.inputVersion, all_eq_true] at hfiles
  rcases hfiles with hshallow | hfiles
  · omega
  · exact absurd (hfiles g hg) (by simp [hcovers])

/-- **Which newest entries a merge drops**: tombstones below which nothing older is left. -/
theorem LevelsOk.dropped (h : LevelsOk st.version st.contents st.nextFileNumber)
    (hrecent : Recent st.version st.contents) (hx : x.IsPicked st.version)
    (htears : x.tearsKey = false) {k : Bytes} {s : ℕ} {e : Entry}
    (hs : s ≤ maxSequenceNumber) (hsnap : st.smallestSnapshotSequence ≤ s)
    (hnewest : IsNewest Entry.key Entry.sequence (inputStore st.contents x) k s e)
    (hdrop : e ∉ keptStore st x) :
    e.live = none ∧ Hidden Entry.key Entry.sequence (keptStore st x) k s ∧
      ∀ e' ∈ leftStore st.contents st.version x, e'.key = k → e'.sequence ≤ s →
        e.sequence < e'.sequence := by
  obtain ⟨hmem, hkey, hvis, hmax⟩ := hnewest
  have hsort := h.sorted_entries hx
  have hents : ∀ e, e ∈ x.entries bytewiseComparator st.contents ↔
      e ∈ inputStore st.contents x :=
    fun e => mem_entries
  -- An entry of the inputs that is not behind the newest one is the newest one.
  have heq : ∀ p ∈ inputStore st.contents x, p.key = k → p.sequence ≤ s →
      ikOrd p.ik ≤ ikOrd e.ik → p = e := by
    rintro p ⟨f, hf, hp⟩ hpkey hps hle
    obtain ⟨g, hg, he⟩ := hmem
    have hseq : p.sequence = e.sequence := le_antisymm (hmax p ⟨f, hf, hp⟩ hpkey hps)
      (Entry.sequence_le_of_ikOrd_le (hpkey.trans hkey.symm) hle)
    obtain ⟨level, hlev⟩ := LevelsOk.mem_files_of_mem_inputs hx hf
    obtain ⟨level', hlev'⟩ := LevelsOk.mem_files_of_mem_inputs hx hg
    exact (h.distinct level f hlev level' g hlev' p hp e he (hpkey.trans hkey.symm) hseq).2
  have hbound : st.smallestSnapshotSequence < 2 ^ 64 - 1 := by
    have : maxSequenceNumber < 2 ^ 64 - 1 := by decide
    omega
  rcases of_notMem_kept hsort hbound ((hents e).mpr hmem) hdrop with
    ⟨hlast, -⟩ | ⟨p, hp, hlt, hpkey, hpseq⟩ | ⟨hlive, hseq, hbase⟩
  · cases hlast
  · have := heq p ((hents p).mp hp) (hpkey.trans hkey) (hpseq.trans hsnap) hlt.le
    exact absurd hlt (this ▸ lt_irrefl _)
  · refine ⟨hlive, fun e' he' hk' hs' => ?_, fun e' he' hk' hs' => ?_⟩
    · have hin := (kept_sublist _ _ _ _ _).subset he'
      have hbehind : ikOrd e.ik < ikOrd e'.ik := by
        by_contra hle
        exact hdrop (heq e' ((hents e').mp hin) hk' hs' (not_lt.mp hle) ▸ he')
      exact notMem_kept hsort ((hents e).mpr hmem) hin hbehind (hkey.trans hk'.symm) hseq _ _ he'
    · obtain ⟨level, hlt, g, hg, hleft, hmem'⟩ := he'
      obtain ⟨f, hf, he⟩ := hmem
      rcases le_or_gt level (x.level + 1) with hle | hgt
      · exact h.newer_left hrecent hx htears hf he hg hle hleft hmem' (hk'.trans hkey.symm)
      · have := not_isBaseLevelForKey h hx hgt hlt hg hmem'
        rw [hk', ← hkey, hbase] at this
        cases this

end Merge

section Runs

variable {sizing : Sizing} {gaps : ℕ → ℕ} {st st' : Lsm bytewiseComparator} {flushed rotated : ℕ}
  {k : Bytes} {s : ℕ}

/-- Two states whose stores tell the same reader the same answer the same read. -/
theorem get_eq_of_reads (h : LevelsOk st.version st.contents st.nextFileNumber)
    (hrecent : Recent st.version st.contents)
    (h' : LevelsOk st'.version st'.contents st'.nextFileNumber)
    (hrecent' : Recent st'.version st'.contents) (hs : s ≤ maxSequenceNumber)
    (hreads : ∀ r, Reads Entry.key Entry.sequence Entry.live (st.version.store st.contents) k s r →
      Reads Entry.key Entry.sequence Entry.live (st'.version.store st'.contents) k s r) :
    st'.get k s = st.get k s := by
  obtain ⟨o, ho, hget⟩ := (h.searchOrder hrecent).recencyOrder.get_spec
    (fun level _ f hf => (h.files level f hf).lookupOk) hs k
  obtain ⟨o', ho', hget'⟩ := (h'.searchOrder hrecent').recencyOrder.get_spec
    (fun level _ f hf => (h'.files level f hf).lookupOk) hs k
  rw [get, get, hget, hget', (hreads _ ⟨o, ho, rfl⟩).unique h'.onePerSequence ⟨o', ho', rfl⟩]

/-- What holds in the states of a run that tears no key. -/
structure ReadInv (st : Lsm bytewiseComparator) (flushed rotated : ℕ) : Prop
    extends Inv st flushed rotated where
  recent : Recent st.version st.contents
  snapshots : ∀ s ∈ st.snapshots, s ≤ st.lastSequence

theorem ReadInv.smallestSnapshotSequence_le (h : ReadInv st flushed rotated) (hs : st.Readable s) :
    st.smallestSnapshotSequence ≤ s := by
  rw [smallestSnapshotSequence]
  rcases hmin : st.snapshots.min? with _ | m
  · rw [min?_eq_none_iff] at hmin
    rcases hs.2 with hlive | hlater
    · rw [hmin] at hlive
      cases hlive
    · exact hlater
  · obtain ⟨hmem, hle⟩ := min?_eq_some_iff.mp hmin
    rcases hs.2 with hlive | hlater
    · exact hle s hlive
    · exact (h.snapshots m hmem).trans hlater

/-- **A compaction that tears no key keeps the order of the levels and every read.** -/
theorem ReadInv.doCompactionWork (h : ReadInv st flushed rotated) (hx : x.IsPicked st.version)
    (htears : x.tearsKey = false) :
    Recent (st.doCompactionWork sizing gaps x).version
      (st.doCompactionWork sizing gaps x).contents ∧
      ∀ k s, st.Readable s → (st.doCompactionWork sizing gaps x).get k s = st.get k s := by
  have hinv := @Inv.doCompactionWork x sizing st flushed rotated h.toInv hx gaps
  rcases doCompactionWork_cases sizing gaps st x with ⟨f, hinputs0, hinputs1, heq⟩ | heq
  · rw [heq] at hinv ⊢
    have hrecent := h.levels.recent_of_sinks h.recent hx htears
      (h.levels.sinks_trivial hx hinputs0 hinputs1)
    refine ⟨hrecent, fun k s hs => get_eq_of_reads h.levels h.recent hinv.levels hrecent hs.1 ?_⟩
    intro r hr
    rw [store_eq_union hx] at hr
    dsimp only
    rwa [h.levels.store_trivial hx hinputs0 hinputs1]
  · rw [heq] at hinv ⊢
    have hrecent := h.levels.recent_of_sinks h.recent hx htears
      (@LevelsOk.sinks_merge x sizing gaps st h.levels hx)
    refine ⟨hrecent, fun k s hs => get_eq_of_reads h.levels h.recent hinv.levels hrecent hs.1 ?_⟩
    intro r hr
    rw [store_eq_union hx] at hr
    dsimp only
    rw [h.levels.store_merge hx]
    refine Reads.of_dropped (fun e he => ?_) (fun e hnewest hdrop => ?_) hr
    · exact mem_entries.mp ((kept_sublist _ _ _ _ _).subset he)
    · exact h.levels.dropped h.recent hx htears hs.1 (h.smallestSnapshotSequence_le hs)
        hnewest hdrop

section Flush

variable {m : MemTable bytewiseComparator} {first last : Entry}

/-- The files of the version and the table of a flush on top of them. -/
abbrev FlushTops (sizing : Sizing) (st : Lsm bytewiseComparator) (m : MemTable bytewiseComparator)
    (first last : Entry) : Prop :=
  Tops st.version st.contents (st.flushEdit sizing m first last) (st.flushLevel first last)
    [(st.flushTable m first last).metadata sizing]
    (writeTables st.contents [st.flushTable m first last])

/-- **The table of a flush goes on top.** Its entries are newer than those of the tables, and above
its level no table has a key in its range. -/
theorem tops_flushEdit (hfiles : ∀ f ∈ st.version.files 0, FileOk (st.contents f.number) f)
    (hfresh : ∀ level < numLevels, ∀ f ∈ st.version.files level, f.number < st.nextFileNumber)
    (hfst : m.entries.head? = some first) (hlast : m.entries.getLast? = some last)
    (hsort : m.entries.Pairwise fun a b => ikOrd a.ik < ikOrd b.ik)
    (hvalid : ∀ e ∈ m.entries, e.Valid)
    (hnewer : Shadows Entry.key Entry.sequence (storeOf m.entries) (st.version.store st.contents)) :
    FlushTops sizing st m first last := by
  have hok : FileOk (st.flushTable m first last).entries
      ((st.flushTable m first last).metadata sizing) :=
    ⟨hsort, by rw [flushTable, hfst]; rfl, by rw [flushTable, hlast]; rfl, hvalid⟩
  have hshadows : Shadows Entry.key Entry.sequence (storeOf (st.flushTable m first last).entries)
      (st.version.store st.contents \ storeOf (st.flushTable m first last).entries) :=
    hnewer.mono subset_rfl Set.sdiff_subset
  exact tops_table (t := st.flushTable m first last) hfiles hfresh hok hshadows rfl rfl

theorem Inv.shadows_flush (h : Inv st flushed rotated) (himm : st.imm = some m) :
    Shadows Entry.key Entry.sequence (storeOf m.entries) (st.version.store st.contents) := by
  rintro a ha b ⟨level, -, f, hf, hb⟩ -
  exact (h.tables level f hf b hb).trans_lt ((h.imm m himm).range a ha).1

theorem Inv.tops_flush (h : Inv st flushed rotated) (himm : st.imm = some m)
    (hfst : m.entries.head? = some first) (hlast : m.entries.getLast? = some last) :
    FlushTops sizing st m first last :=
  tops_flushEdit (h.levels.files 0) (fun level _ => h.levels.fresh level) hfst hlast
    (h.imm m himm).sorted (h.imm m himm).valid (h.shadows_flush himm)

/-- A flush keeps the order of the tables. -/
theorem searchOrder_flush
    (htops : FlushTops sizing st m first last)
    (hnewer : Shadows Entry.key Entry.sequence (storeOf m.entries) (st.version.store st.contents))
    (hold : SearchOrder st.version st.contents) :
    SearchOrder (st.version.edited bytewiseComparator (st.flushEdit sizing m first last))
      (writeTables st.contents [st.flushTable m first last]) := by
  have hwrit : writeTables st.contents [st.flushTable m first last]
      ((st.flushTable m first last).metadata sizing).number = m.entries :=
    Function.update_self _ _ _
  refine htops.searchOrder hold (forall_mem_singleton.mpr ?_)
  rw [fileStore, hwrit]
  exact hnewer.disjoint

end Flush

theorem ReadInv.recent_flush (h : ReadInv st flushed rotated) :
    Recent (st.flush sizing).version (st.flush sizing).contents := by
  rcases flush_cases sizing st with
    ⟨-, heq⟩ | ⟨m, -, -, heq⟩ | ⟨m, first, last, himm, hfst, hlast, heq⟩
  · rw [heq]
    exact h.recent
  · rw [heq]
    exact h.recent
  · rw [heq]
    exact recent_of_searchOrder (searchOrder_flush (h.tops_flush himm hfst hlast)
      (h.shadows_flush himm) (h.levels.searchOrder h.recent))
      fun level hle => files_edited_of_le hle

private theorem snapshots_step (h : ∀ s ∈ st.snapshots, s ≤ st.lastSequence) (action : Action) :
    ∀ s ∈ (step sizing st action).snapshots, s ≤ (step sizing st action).lastSequence := by
  cases action with
  | write valueType key value =>
    rw [Lsm.step]
    split_ifs
    · exact fun s hs => (h s hs).trans (Nat.le_succ _)
    · exact h
  | rotate =>
    rw [Lsm.step]
    split_ifs <;> exact h
  | flush =>
    obtain ⟨hlast, hsnaps⟩ := frame_flush sizing st
    rwa [Lsm.step, hlast, hsnaps]
  | snapshot => exact forall_mem_append.mpr ⟨h, forall_mem_singleton.mpr le_rfl⟩
  | release s => exact fun t ht => h t (mem_of_mem_erase ht)
  | allocate => exact h
  | compact pick gaps succeeds =>
    obtain ⟨hlast, hsnaps⟩ := frame_compact sizing st pick gaps succeeds
    rwa [Lsm.step, hlast, hsnaps]

/-- **One step that tears no key keeps the invariant.** -/
theorem ReadInv.step (h : ReadInv st flushed rotated) {action : Action}
    (hkeeps : st.KeepsKeys action) :
    ∃ flushed' rotated', ReadInv (step sizing st action) flushed' rotated' := by
  obtain ⟨flushed', rotated', hinv⟩ := @Inv.step sizing st flushed rotated h.toInv action
  refine ⟨flushed', rotated', hinv, tables_step h.recent h.recent_flush ?_,
    snapshots_step h.snapshots action⟩
  rintro pick gaps x rfl hx
  have hpick := isPicked_pickedBy h.levels hx
  have hptr : ReadInv (st.movePointer x) flushed rotated := { h with }
  exact (hptr.doCompactionWork hpick (hkeeps x hx)).1

/-- **The invariant holds in every state of a run that tears no key.** -/
theorem readInv_run {actions : List Action}
    (hrun : Runs.Along (Lsm.step sizing) KeepsKeys empty actions) :
    ∃ flushed rotated, ReadInv (Runs.run (Lsm.step sizing) empty actions) flushed rotated := by
  have hempty : ReadInv {} 0 0 :=
    { inv_empty with
      recent := ⟨fun _ hf => absurd hf not_mem_nil, fun _ _ hf => absurd hf not_mem_nil⟩
      snapshots := fun _ hs => absurd hs not_mem_nil }
  refine Runs.invariant (I := fun st => ∃ flushed rotated, ReadInv st flushed rotated) ?_
    ⟨0, 0, hempty⟩ hrun
  rintro st action ⟨flushed, rotated, h⟩ hkeeps
  exact h.step hkeeps

/-- **A compaction preserves reads** in every run in which no compaction, this one included, leaves
a part of a user key behind. -/
theorem get_compact {actions : List Action}
    (hrun : Runs.Along (Lsm.step sizing) KeepsKeys empty actions) {pick : Pick}
    (hkeeps : (Runs.run (Lsm.step sizing) empty actions).KeepsKeys (.compact pick gaps true))
    (hs : (Runs.run (Lsm.step sizing) empty actions).Readable s) :
    (Lsm.step sizing (Runs.run (Lsm.step sizing) empty actions) (.compact pick gaps true)).get k s =
      (Runs.run (Lsm.step sizing) empty actions).get k s := by
  obtain ⟨flushed, rotated, h⟩ := readInv_run hrun
  generalize Runs.run (Lsm.step sizing) empty actions = st at *
  rw [Lsm.step, compact]
  rcases hx : st.pickedBy pick with _ | x
  · rfl
  · have hpick := isPicked_pickedBy h.levels hx
    have hptr : ReadInv (st.movePointer x) flushed rotated := { h with }
    exact (hptr.doCompactionWork hpick (hkeeps x hx)).2 k s hs

end Runs

/-! ### A torn key -/

/-- The sizes of the tables of the run below as `TableFileBuilder` reports them with the default
block size and no filter or compressor, where the second value of `k` has two mebibytes and the
other values one byte. -/
def tornSizing : Sizing where
  growing entries := if entries.any (·.sequence == 4) then targetFileSize + 41 else 0
  finished entries :=
    if entries.any (·.sequence == 4) then
      if entries.any (·.sequence == 3) then targetFileSize + 166 else targetFileSize + 132
    else 127

/-- `a` and `z` go to a table in level 2. A snapshot keeps the first value of `k`; the second one
has two mebibytes. Both go to a table in level 1, and a compaction of that level writes two tables
to level 2, the first one ending with the second value of `k` and the second one starting with the
first value. -/
def tornActions : List Action :=
  [.write .value [97] [1], .write .value [122] [2], .rotate, .flush,
    .write .value [107] [3], .snapshot, .write .value [107] (List.replicate 2097152 0),
    .rotate, .flush,
    .compact (.manual 1 none none) (fun _ => 0) true]

/-- **A compaction that changes a read.** The first of the two tables is moved to level 3, and the
older value of `k` is found before the newer one. -/
theorem get_compact_torn :
    (Runs.run (step tornSizing) empty tornActions).Readable 4 ∧
      (step tornSizing (Runs.run (step tornSizing) empty tornActions)
          (.compact (.manual 2 (some [97]) (some [97])) (fun _ => 0) true)).get [107] 4 ≠
        (Runs.run (step tornSizing) empty tornActions).get [107] 4 := by
  refine ⟨⟨by decide, .inr ?_⟩, ?_⟩
  · decide +kernel
  · decide +kernel

/-- The compaction before it does not tear the key: it preserves the read at the live snapshot. -/
theorem get_compact_whole :
    (step tornSizing (Runs.run (step tornSizing) empty (tornActions.take 9))
        (.compact (.manual 1 none none) (fun _ => 0) true)).get [107] 3 =
      (Runs.run (step tornSizing) empty (tornActions.take 9)).get [107] 3 :=
  get_compact (by decide +kernel) (by decide +kernel) ⟨by decide, .inl (by decide +kernel)⟩

end Lsm
end PulsearcDb
