import PulsearcDb.VersionSet.Overlap

/-!
# Picking the files of a flush or a compaction

The choices of `version_set/version_set.rs`: which files of a level overlap a range of user keys,
the level of a new table, and the inputs of a compaction, be it triggered by a seek, by the size of
a level or by hand. All of them go by user keys, while the order of a level is by internal keys.

`get_overlapping_inputs` scans a level. In level 0, where files overlap each other, a file that
reaches beyond the range extends it, and the scan starts over; what it returns is closed under
overlap (`getOverlappingInputs_level0`).
-/

namespace PulsearcDb

open List

/-- A table of a merge ends at 2 MiB. -/
def targetFileSize : ℕ := 2097152

/-- Ten times the target size. -/
def maxGrandparentOverlapBytes : ℕ := 20971520

namespace Version

variable (c : Comparator) (v : Version)

/-- The loop of `pick_level_for_memtable_output`. -/
def deepenLevel (smallest largest : Bytes) (level : ℕ) : ℕ :=
  if level < maxMemCompactLevel then
    if v.overlapInLevel c (level + 1) (some smallest) (some largest) then level
    else if level + 2 < numLevels ∧ maxGrandparentOverlapBytes < totalFileSize
        (v.getOverlappingInputs c (level + 2) (some smallest) (some largest)) then level
    else deepenLevel smallest largest (level + 1)
  else level
termination_by maxMemCompactLevel - level

/-- How deep a new table may go. -/
def pickLevelForMemtableOutput (smallest largest : Bytes) : ℕ :=
  if v.overlapInLevel c 0 (some smallest) (some largest) then 0
  else v.deepenLevel c smallest largest 0

end Version

/-! ### Compactions -/

/-- `get_user_range`: the smallest and the largest user key of some files, as byte strings. -/
def getUserRange : List FileMetaData → Bytes × Bytes
  | [] => ([], [])
  | f :: files =>
    files.foldl (fun range g =>
      (if g.start < range.1 then g.start else range.1,
        if range.2 < g.limit then g.limit else range.2)) (f.start, f.limit)

/-- The range of two lists of files, by bytes. -/
def getUserRangePair (a b : List FileMetaData) : Bytes × Bytes :=
  if a.isEmpty then getUserRange b
  else if b.isEmpty then getUserRange a
  else
    (if (getUserRange a).1 ≤ (getUserRange b).1 then (getUserRange a).1 else (getUserRange b).1,
      if (getUserRange b).2 ≤ (getUserRange a).2 then (getUserRange a).2 else (getUserRange b).2)

/-- The largest of the upper bounds. -/
def largestInternalKey (c : Comparator) : List FileMetaData → Bytes
  | [] => []
  | f :: files =>
    files.foldl (fun best g => if icmp c g.largest best = .gt then g.largest else best) f.largest

/-- A planned compaction. The edit of the source starts with the compact pointer. -/
structure Compaction where
  level : ℕ
  inputs0 : List FileMetaData
  inputs1 : List FileMetaData := []
  grandparents : List FileMetaData := []
  inputVersion : Version
  compactPointer : Bytes := []

namespace Compaction

variable (c : Comparator)

/-- One file, with nothing to merge it with. -/
def isTrivialMove (x : Compaction) : Bool :=
  x.inputs0.length == 1 && x.inputs1.isEmpty &&
    decide (totalFileSize x.grandparents ≤ maxGrandparentOverlapBytes)

/-- No file below the output level covers the key. -/
def isBaseLevelForKey (x : Compaction) (key : Bytes) : Bool :=
  (List.range numLevels).all fun level =>
    level < x.level + 2 || (x.inputVersion.files level).all fun f => !Version.covers c key f

/-- The files of the next level that the inputs overlap. -/
def overlapped (level : ℕ) (v : Version) (inputs0 : List FileMetaData) : List FileMetaData :=
  v.getOverlappingInputs c (level + 1) (some (getUserRange inputs0).1)
    (some (getUserRange inputs0).2)

/-- The two input lists of `setup_other_inputs`: the first one grows if the second one does not. -/
def expandInputs (level : ℕ) (v : Version) (inputs0 : List FileMetaData) :
    List FileMetaData × List FileMetaData :=
  let inputs1 := overlapped c level v inputs0
  let all := getUserRangePair inputs0 inputs1
  let expanded0 := v.getOverlappingInputs c level (some all.1) (some all.2)
  let expanded1 := overlapped c level v expanded0
  if inputs1.isEmpty then (inputs0, inputs1)
  else if inputs0.length < expanded0.length ∧
      totalFileSize inputs1 + totalFileSize expanded0 < 25 * targetFileSize ∧
      expanded1.length = inputs1.length then (expanded0, expanded1)
  else (inputs0, inputs1)

/-- The inputs at both levels, and the grandparents. -/
def setupOtherInputs (level : ℕ) (v : Version) (inputs0 : List FileMetaData) : Compaction :=
  let inputs := expandInputs c level v inputs0
  let all := getUserRangePair inputs.1 inputs.2
  { level, inputs0 := inputs.1, inputs1 := inputs.2
    grandparents :=
      if level + 2 < numLevels then v.getOverlappingInputs c (level + 2) (some all.1) (some all.2)
      else []
    inputVersion := v
    compactPointer := largestInternalKey c inputs.1 }

/-- In level 0 all files that overlap the picked one take part. -/
def ofFile (level : ℕ) (v : Version) (f : FileMetaData) : Compaction :=
  setupOtherInputs c level v <|
    if level = 0 then
      v.getOverlappingInputs c 0 (some (getUserRange [f]).1) (some (getUserRange [f]).2)
    else [f]

end Compaction

namespace Version

variable (c : Comparator) (v : Version)

/-- The file that used up its seek allowance, if the version still has it. -/
def seekFile (fileToCompact : Option (ℕ × ℕ)) : Option (ℕ × FileMetaData) :=
  fileToCompact.bind fun x =>
    if x.1 + 1 < numLevels then ((v.files x.1).find? (·.number == x.2)).map (x.1, ·) else none

/-- The next file of a level in turn: the first one behind the compact pointer, or the first one. -/
def nextFile (level : ℕ) (pointer : Bytes) : Option FileMetaData :=
  ((v.files level).find? fun f => pointer.isEmpty || icmp c f.largest pointer == .gt).or
    (v.files level).head?

/-- `pick_compaction`: a file that used up its seek allowance comes before the level with the
highest score. -/
def pickCompaction (fileToCompact : Option (ℕ × ℕ)) (compactPointer : ℕ → Bytes) :
    Option Compaction :=
  match v.seekFile fileToCompact with
  | some (level, f) => some (Compaction.ofFile c level v f)
  | none =>
    if v.compactionScore < 1 then none
    else
      let level := v.compactionLevel.toNat
      (v.nextFile c level (compactPointer level)).map (Compaction.ofFile c level v)

/-- The files of a range that is to be compacted. -/
def pickManualCompaction (level : ℕ) (first last : Option Bytes) : Option Compaction :=
  if numLevels ≤ level + 1 then none
  else if (v.getOverlappingInputs c level first last).isEmpty then none
  else some (Compaction.setupOtherInputs c level v (v.getOverlappingInputs c level first last))

end Version

variable {v : Version} {f : FileMetaData} {level : ℕ}

theorem Version.mem_of_seekFile {fileToCompact : Option (ℕ × ℕ)}
    (h : v.seekFile fileToCompact = some (level, f)) :
    level + 1 < numLevels ∧ f ∈ v.files level := by
  obtain ⟨y, -, hy⟩ := Option.bind_eq_some_iff.mp h
  split_ifs at hy with hlt
  obtain ⟨g, hg, heq⟩ := Option.map_eq_some_iff.mp hy
  cases heq
  exact ⟨hlt, mem_of_find?_eq_some hg⟩

theorem Version.mem_of_nextFile {c : Comparator} {pointer : Bytes}
    (h : v.nextFile c level pointer = some f) : f ∈ v.files level := by
  rcases Option.or_eq_some_iff.mp h with hf | ⟨-, hf⟩
  · exact mem_of_find?_eq_some hf
  · exact mem_of_mem_head? hf

/-! ### What the scan returns -/

theorem overlaps_bytewise {first last : Option Bytes} :
    overlaps bytewiseComparator first last f = true ↔
      (∀ b ∈ first, b ≤ f.limit) ∧ ∀ e ∈ last, f.start ≤ e := by
  simp only [overlaps_iff, bytewise_isLE]

/-- The file lies within the range, and the range is bounded. -/
def Within (first last : Option Bytes) (f : FileMetaData) : Prop :=
  (∃ b ∈ first, b ≤ f.start) ∧ ∃ e ∈ last, f.limit ≤ e

/-- The second range is at least as wide as the first one. -/
def Widens (first last first' last' : Option Bytes) : Prop :=
  (∀ b ∈ first, ∃ b' ∈ first', b' ≤ b) ∧ ∀ e ∈ last, ∃ e' ∈ last', e ≤ e'

/-- **In level 0 the scan returns the files that overlap a range at least as wide as the given one,
and all of them lie within that range.** -/
theorem Version.getOverlappingInputs_level0 {v : Version} {first last : Option Bytes}
    (hv : ∀ f ∈ v.files 0, f.start ≤ f.limit) :
    ∃ first' last', Widens first last first' last' ∧
      v.getOverlappingInputs bytewiseComparator 0 first last =
        (v.files 0).filter (overlaps bytewiseComparator first' last') ∧
      ∀ f ∈ v.files 0, overlaps bytewiseComparator first' last' f = true →
        Within first' last' f := by
  rcases hfind : (v.files 0).find? (overlaps bytewiseComparator first last) with _ | f
  · have hnone := find?_eq_none.mp hfind
    refine ⟨first, last, ⟨fun b hb => ⟨b, hb, le_rfl⟩, fun e he => ⟨e, he, le_rfl⟩⟩, ?_, ?_⟩
    · rw [getOverlappingInputs, overlapLoop_of_find?_eq_none hfind, filter_eq_nil_iff.mpr hnone]
    · exact fun f hf hover => absurd hover (hnone f hf)
  · obtain ⟨h, hencloses, hcontains, hclosed, -, hres⟩ := overlapLoop_level0 hfind
    have hf := hv f (mem_of_find?_eq_some hfind)
    have hmeets := hcontains.meets (bytewise_isLE.mpr hf)
    refine ⟨some h.first, some h.last, ⟨?_, ?_⟩, ?_, ?_⟩
    · exact fun b hb => ⟨_, rfl, bytewise_isLE.mp (hencloses.1 b hb)⟩
    · exact fun e he => ⟨_, rfl, bytewise_isLE.mp (hencloses.2 e he)⟩
    · rw [getOverlappingInputs, hres.resolve_right fun hr => hr.1 hmeets]
      exact filter_congr fun g _ => by rw [Bool.eq_iff_iff, overlaps_some_iff, decide_eq_true_eq]
    · intro g hg hover
      have hw := hclosed g hg (overlaps_some_iff.mp hover)
      exact ⟨⟨_, rfl, bytewise_isLE.mp hw.1⟩, _, rfl, bytewise_isLE.mp hw.2⟩

theorem Version.getOverlappingInputs_sublist (level : ℕ) (first last : Option Bytes)
    (hv : ∀ f ∈ v.files 0, f.start ≤ f.limit) :
    (v.getOverlappingInputs bytewiseComparator level first last).Sublist (v.files level) := by
  by_cases hlev : level = 0
  · subst hlev
    obtain ⟨first', last', -, heq, -⟩ := @getOverlappingInputs_level0 v first last hv
    rw [heq]
    exact filter_sublist
  · rw [getOverlappingInputs_of_ne _ _ hlev]
    exact filter_sublist

/-- Every file of the level that overlaps the given range is returned, if the range is bounded. -/
theorem Version.mem_getOverlappingInputs {first last : Bytes}
    (hv : ∀ f ∈ v.files 0, f.start ≤ f.limit) (hf : f ∈ v.files level)
    (hfst : first ≤ f.limit) (hlast : f.start ≤ last) :
    f ∈ v.getOverlappingInputs bytewiseComparator level (some first) (some last) := by
  by_cases hlev : level = 0
  · subst hlev
    obtain ⟨first', last', hwidens, heq, -⟩ :=
      @getOverlappingInputs_level0 v (some first) (some last) hv
    obtain ⟨b', ⟨⟩, hb'⟩ := hwidens.1 first rfl
    obtain ⟨e', ⟨⟩, he'⟩ := hwidens.2 last rfl
    rw [heq, mem_filter, overlaps_bytewise]
    refine ⟨hf, ?_, ?_⟩
    · rintro _ ⟨⟩
      exact hb'.trans hfst
    · rintro _ ⟨⟩
      exact hlast.trans he'
  · rw [getOverlappingInputs_of_ne _ _ hlev, mem_filter, overlaps_bytewise]
    refine ⟨hf, ?_, ?_⟩
    · rintro _ ⟨⟩
      exact hfst
    · rintro _ ⟨⟩
      exact hlast

theorem Version.not_overlapInLevel {first last : Bytes} (hv : ∀ f ∈ v.files 0, f.start ≤ f.limit)
    (h : v.overlapInLevel bytewiseComparator level (some first) (some last) = false)
    (hf : f ∈ v.files level) : f.limit < first ∨ last < f.start := by
  rw [overlapInLevel, Bool.not_eq_false', List.isEmpty_iff] at h
  by_contra hover
  rw [not_or, not_lt, not_lt] at hover
  exact not_mem_nil (h ▸ mem_getOverlappingInputs hv hf hover.1 hover.2)

/-! ### The range of some files -/

private theorem foldl_least {α β : Type*} [LinearOrder β] [DecidableLT β] (f : α → β) (l : List α)
    (m : β) :
    let r := l.foldl (fun m a => if f a < m then f a else m) m
    (r ≤ m ∧ ∀ a ∈ l, r ≤ f a) ∧ (r = m ∨ ∃ a ∈ l, f a = r) := by
  induction l generalizing m with
  | nil => simp
  | cons a l ih =>
    obtain ⟨⟨hle, hall⟩, hex⟩ := ih (if f a < m then f a else m)
    simp only [foldl_cons]
    generalize l.foldl _ _ = r at *
    split_ifs at hle hex with hlt
    · refine ⟨⟨hle.trans hlt.le, forall_mem_cons.mpr ⟨hle, hall⟩⟩, .inr ?_⟩
      rcases hex with h | ⟨b, hb, h⟩
      · exact ⟨a, mem_cons_self, h.symm⟩
      · exact ⟨b, mem_cons_of_mem a hb, h⟩
    · refine ⟨⟨hle, forall_mem_cons.mpr ⟨hle.trans (not_lt.mp hlt), hall⟩⟩, hex.imp_right ?_⟩
      rintro ⟨b, hb, h⟩
      exact ⟨b, mem_cons_of_mem a hb, h⟩

private theorem foldl_range (files : List FileMetaData) (range : Bytes × Bytes) :
    files.foldl (fun range g =>
      (if g.start < range.1 then g.start else range.1,
        if range.2 < g.limit then g.limit else range.2)) range =
      (files.foldl (fun m g => if g.start < m then g.start else m) range.1,
        files.foldl (fun m g => if m < g.limit then g.limit else m) range.2) := by
  induction files generalizing range with
  | nil => rfl
  | cons g files ih => rw [foldl_cons, ih, foldl_cons, foldl_cons]

/-- The range covers the files, and its ends are taken. -/
theorem getUserRange_spec {files : List FileMetaData} (hne : files ≠ []) :
    (∀ f ∈ files, (getUserRange files).1 ≤ f.start ∧ f.limit ≤ (getUserRange files).2) ∧
      (∃ f ∈ files, f.start = (getUserRange files).1) ∧
      ∃ f ∈ files, f.limit = (getUserRange files).2 := by
  obtain ⟨g, files, rfl⟩ := exists_cons_of_ne_nil hne
  rw [getUserRange, foldl_range]
  obtain ⟨⟨hlo, hlos⟩, hstart⟩ := foldl_least FileMetaData.start files g.start
  obtain ⟨⟨hhi, hhis⟩, hlimit⟩ := @foldl_least _ Bytesᵒᵈ _
    (fun a b : Bytes => inferInstanceAs (Decidable (b < a))) FileMetaData.limit files g.limit
  refine ⟨forall_mem_cons.mpr ⟨⟨hlo, hhi⟩, fun f hf => ⟨hlos f hf, hhis f hf⟩⟩, ?_, ?_⟩
  · rcases hstart with h | ⟨f, hf, h⟩
    · exact ⟨g, mem_cons_self, h.symm⟩
    · exact ⟨f, mem_cons_of_mem g hf, h⟩
  · rcases hlimit with h | ⟨f, hf, h⟩
    · exact ⟨g, mem_cons_self, h.symm⟩
    · exact ⟨f, mem_cons_of_mem g hf, h⟩

/-! ### The inputs of a compaction -/

/-- The inputs of a compaction at its own level. In level 0 no other file overlaps them. -/
structure Version.IsInputs (v : Version) (level : ℕ) (inputs : List FileMetaData) : Prop where
  ne_nil : inputs ≠ []
  sublist : inputs.Sublist (v.files level)
  closed : level = 0 → ∀ g ∈ v.files 0, g ∉ inputs →
    g.limit < (getUserRange inputs).1 ∨ (getUserRange inputs).2 < g.start

/-- What picking a compaction of a version guarantees: its inputs at the next level are the files
that overlap the range of those at its own level. -/
structure Compaction.IsPicked (v : Version) (x : Compaction) : Prop where
  level_lt : x.level + 1 < numLevels
  inputVersion : x.inputVersion = v
  inputs0 : v.IsInputs x.level x.inputs0
  inputs1 : x.inputs1 = (v.files (x.level + 1)).filter (overlaps bytewiseComparator
    (some (getUserRange x.inputs0).1) (some (getUserRange x.inputs0).2))

section Picked

variable {v : Version} {level : ℕ} (hv : ∀ f ∈ v.files 0, f.start ≤ f.limit)
include hv

theorem Version.isInputs_getOverlappingInputs {first last : Option Bytes}
    (hne : v.getOverlappingInputs bytewiseComparator level first last ≠ []) :
    v.IsInputs level (v.getOverlappingInputs bytewiseComparator level first last) := by
  refine ⟨hne, getOverlappingInputs_sublist level first last hv, ?_⟩
  rintro rfl g hg hnot
  obtain ⟨hall, ⟨f, hf, hstart⟩, f', hf', hlimit⟩ := getUserRange_spec hne
  obtain ⟨first', last', -, heq, hw⟩ := @getOverlappingInputs_level0 v first last hv
  rw [heq] at hnot hf hf'
  rw [← hstart, ← hlimit]
  obtain ⟨⟨b, ⟨⟩, hb⟩, -⟩ := hw f (mem_of_mem_filter hf) (mem_filter.mp hf).2
  obtain ⟨⟨b', ⟨⟩, hb'⟩, e, ⟨⟩, he⟩ := hw f' (mem_of_mem_filter hf') (mem_filter.mp hf').2
  by_contra hover
  rw [not_or, not_lt, not_lt] at hover
  refine hnot (mem_filter.mpr ⟨hg, overlaps_bytewise.mpr ⟨?_, ?_⟩⟩)
  · rintro _ ⟨⟩
    exact hb.trans hover.1
  · rintro _ ⟨⟩
    exact hover.2.trans he

theorem Compaction.isPicked_setupOtherInputs {inputs : List FileMetaData}
    (hlev : level + 1 < numLevels) (hins : v.IsInputs level inputs) :
    (setupOtherInputs bytewiseComparator level v inputs).IsPicked v := by
  have hexpand : v.IsInputs level (expandInputs bytewiseComparator level v inputs).1 ∧
      (expandInputs bytewiseComparator level v inputs).2 =
        overlapped bytewiseComparator level v
          (expandInputs bytewiseComparator level v inputs).1 := by
    rw [expandInputs]
    split_ifs with hempty hgrow
    · exact ⟨hins, rfl⟩
    · refine ⟨Version.isInputs_getOverlappingInputs hv ?_, rfl⟩
      exact ne_nil_of_length_pos (Nat.zero_lt_of_lt hgrow.1)
    · exact ⟨hins, rfl⟩
  refine ⟨hlev, rfl, hexpand.1, hexpand.2.trans ?_⟩
  exact Version.getOverlappingInputs_of_ne _ _ (Nat.succ_ne_zero level) _ _

variable {f : FileMetaData}

theorem Compaction.isPicked_ofFile (hlev : level + 1 < numLevels) (hf : f ∈ v.files level) :
    (ofFile bytewiseComparator level v f).IsPicked v := by
  rw [ofFile]
  split_ifs with h0
  · subst h0
    refine isPicked_setupOtherInputs hv hlev (Version.isInputs_getOverlappingInputs hv ?_)
    refine ne_nil_of_mem (Version.mem_getOverlappingInputs hv hf ?_ ?_)
    · exact hv f hf
    · exact hv f hf
  · refine isPicked_setupOtherInputs hv hlev ⟨cons_ne_nil f [], ?_, fun h => absurd h h0⟩
    exact singleton_sublist.mpr hf

theorem Version.isPicked_pickCompaction {fileToCompact : Option (ℕ × ℕ)}
    {compactPointer : ℕ → Bytes} {x : Compaction} (hlev : v.compactionLevel.toNat + 1 < numLevels)
    (h : v.pickCompaction bytewiseComparator fileToCompact compactPointer = some x) :
    x.IsPicked v := by
  rw [pickCompaction] at h
  split at h
  next level f hseek =>
    cases h
    obtain ⟨hlt, hf⟩ := mem_of_seekFile hseek
    exact Compaction.isPicked_ofFile hv hlt hf
  next =>
    split_ifs at h with hscore
    obtain ⟨f, hf, rfl⟩ := Option.map_eq_some_iff.mp h
    exact Compaction.isPicked_ofFile hv hlev (mem_of_nextFile hf)

theorem Version.isPicked_pickManualCompaction {first last : Option Bytes} {x : Compaction}
    (h : v.pickManualCompaction bytewiseComparator level first last = some x) : x.IsPicked v := by
  rw [pickManualCompaction] at h
  split_ifs at h with hlev hempty
  cases h
  refine Compaction.isPicked_setupOtherInputs hv (not_le.mp hlev)
    (isInputs_getOverlappingInputs hv ?_)
  exact fun hnil => hempty (List.isEmpty_iff.mpr hnil)

private theorem Version.not_overlap_deepenLevel {smallest largest : Bytes} {j : ℕ} (hj : level < j)
    (hle : j ≤ v.deepenLevel bytewiseComparator smallest largest level) (hf : f ∈ v.files j) :
    f.limit < smallest ∨ largest < f.start := by
  fun_induction v.deepenLevel bytewiseComparator smallest largest level with
  | case1 => omega
  | case2 => omega
  | case3 level _ hover hsize ih =>
    rcases (Nat.succ_le_of_lt hj).lt_or_eq with hlt | rfl
    · exact ih hlt hle
    · exact not_overlapInLevel hv (Bool.eq_false_iff.mpr hover) hf
  | case4 level _ => omega

/-- A new table that goes below level 0 overlaps no file of its level or above. -/
theorem Version.not_overlap_pickLevel {smallest largest : Bytes} {j : ℕ}
    (hpos : 0 < v.pickLevelForMemtableOutput bytewiseComparator smallest largest)
    (hj : j ≤ v.pickLevelForMemtableOutput bytewiseComparator smallest largest)
    (hf : f ∈ v.files j) : f.limit < smallest ∨ largest < f.start := by
  rw [pickLevelForMemtableOutput] at hpos hj
  split_ifs at hpos hj with hover
  · exact absurd hpos (lt_irrefl 0)
  · rcases Nat.eq_zero_or_pos j with rfl | hjpos
    · exact not_overlapInLevel hv (Bool.eq_false_iff.mpr hover) hf
    · exact not_overlap_deepenLevel hv hjpos hj hf

end Picked

theorem Compaction.IsPicked.not_overlap {x : Compaction} (hx : x.IsPicked v) {g : FileMetaData}
    (hg : g ∈ v.files (x.level + 1)) (hnot : g ∉ x.inputs1) :
    g.limit < (getUserRange x.inputs0).1 ∨ (getUserRange x.inputs0).2 < g.start := by
  by_contra hover
  rw [not_or, not_lt, not_lt] at hover
  refine hnot ?_
  rw [hx.inputs1, mem_filter, overlaps_bytewise]
  refine ⟨hg, ?_, ?_⟩
  · rintro _ ⟨⟩
    exact hover.1
  · rintro _ ⟨⟩
    exact hover.2

theorem Compaction.IsPicked.overlap {x : Compaction} (hx : x.IsPicked v) (hf : f ∈ x.inputs1) :
    f ∈ v.files (x.level + 1) ∧ (getUserRange x.inputs0).1 ≤ f.limit ∧
      f.start ≤ (getUserRange x.inputs0).2 := by
  rw [hx.inputs1, mem_filter, overlaps_bytewise] at hf
  exact ⟨hf.1, hf.2.1 _ rfl, hf.2.2 _ rfl⟩

private theorem Version.deepenLevel_le {c : Comparator} {smallest largest : Bytes}
    (h : level ≤ maxMemCompactLevel) :
    v.deepenLevel c smallest largest level ≤ maxMemCompactLevel := by
  fun_induction v.deepenLevel c smallest largest level with
  | case1 => exact h
  | case2 => exact h
  | case3 level hlt _ _ ih => exact ih hlt
  | case4 => exact h

theorem Version.pickLevelForMemtableOutput_lt (c : Comparator) (v : Version)
    (smallest largest : Bytes) : v.pickLevelForMemtableOutput c smallest largest < numLevels := by
  rw [pickLevelForMemtableOutput]
  split_ifs
  · decide
  · exact (deepenLevel_le (Nat.zero_le _)).trans_lt (by decide)

end PulsearcDb
