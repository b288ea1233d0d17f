import PulsearcDb.DbImpl.Background
import PulsearcDb.DbImpl.LsmLevels

/-!
# Background compaction comes to an end

The second phase of `bg_step_async` (`db_impl/db_impl.rs`) picks a compaction and carries it out
until `pick_compaction` finds none. A compaction may make its output level due in turn, write any
number of tables there and drop any of the entries, so neither the scores nor the number of files
fall. What falls is the distance of the entries to the last level: a compaction takes entries out of
its level and puts at most as many into the next one.

`pick_compaction` panics when the level it has chosen is the last one or is empty. These panics are
part of the model here: `Drain.pickCompaction` has no value then.
-/

namespace PulsearcDb

open List

/-- The inputs that a compaction starts from: in level 0 all files that overlap the picked one. -/
def Compaction.startInputs (c : Comparator) (level : ℕ) (v : Version) (f : FileMetaData) :
    List FileMetaData :=
  if level = 0 then
    v.getOverlappingInputs c 0 (some (getUserRange [f]).1) (some (getUserRange [f]).2)
  else [f]

/-- What the loop reads and changes. -/
structure Drain extends Tables where
  /-- The mark of the current version; a new version has none. -/
  fileToCompact : Option (ℕ × ℕ)

/-- What a turn of the loop meets: the file numbers that others take between two tables, the oldest
snapshot, and the error of an operation that fails. -/
structure Turn where
  gaps : ℕ → ℕ
  smallestSnapshot : ℕ
  error : Option Status

namespace Drain

variable (sizing : Sizing) (c : Comparator)

/-- The loop after the picking of a compaction. -/
def moved (s : Drain) (x : Compaction) : Drain := { s with toTables := s.toTables.movePointer x }

/-- The compaction of a file. `get_user_range` asserts that there are inputs. -/
def setUp (s : Drain) (level : ℕ) (f : FileMetaData) : Option (Option Compaction × Drain) :=
  if (Compaction.startInputs c level s.version f).isEmpty then none
  else
    let x := Compaction.setupOtherInputs c level s.version
      (Compaction.startInputs c level s.version f)
    some (some x, s.moved x)

/-- `take_file_to_compact`. -/
def taken (s : Drain) : Drain := { s with fileToCompact := none }

/-- `pick_compaction`, which takes the mark of the version. No value stands for a panic. -/
def pickCompaction (s : Drain) : Option (Option Compaction × Drain) :=
  match s.version.seekFile s.fileToCompact with
  | some (level, f) => s.taken.setUp c level f
  | none =>
    if s.version.compactionScore < 1 then some (none, s.taken)
    -- A negative level is a huge `usize`, which fails the assertion or the index after it.
    else if s.version.compactionLevel < 0 ∨
        numLevels ≤ s.version.compactionLevel.toNat + 1 then none
    else
      match s.version.nextFile c s.version.compactionLevel.toNat
          (s.compactPointer s.version.compactionLevel.toNat) with
      | none => none
      | some f => s.taken.setUp c s.version.compactionLevel.toNat f

/-- A compaction that is carried out. -/
def worked (t : Turn) (s : Drain) (x : Compaction) : Drain :=
  { s with toTables := s.toTables.doCompactionWork sizing c t.gaps t.smallestSnapshot x }

/-- One turn of the loop. It ends when nothing is picked or an operation fails. -/
def turn (t : Turn) (s : Drain) : Option (Drain ⊕ Result Unit × Drain) :=
  match s.pickCompaction c with
  | none => none
  | some (none, s') => some (.inr (.ok (), s'))
  | some (some x, s') =>
    match t.error with
    | some e => some (.inr (.error e, s'))
    | none => some (.inl (s'.worked sizing c t x))

/-- The second phase of `bg_step_async`. -/
def bgStep (fuel : ℕ) (turns : ℕ → Turn) (s : Drain) : Option (Result Unit × Drain) :=
  loopWithin (fun i => turn sizing c (turns i)) fuel 0 s

/-- The states that the loop reaches. -/
def Reaches : Drain → Drain → Prop :=
  Relation.ReflTransGen fun s s' => ∃ t, turn sizing c t s = some (.inl s')

end Drain

/-- The score of a version is that of `finalize`, or that of a new version. -/
def Version.Scored (v : Version) : Prop :=
  (v.compactionScore = -1 ∧ v.compactionLevel = -1) ∨
    (v.compactionScore = v.bestLevel.1 ∧ v.compactionLevel = v.bestLevel.2)

namespace Drain

/-- A version whose tables are not empty. The bounds of the files of level 0 are in order, the file
numbers have been given out, and the score is one that the code sets. -/
structure WellFormed (c : Comparator) (s : Drain) : Prop where
  tables : ∀ level < numLevels, ∀ f ∈ s.version.files level, s.contents f.number ≠ []
  keys : ∀ f ∈ s.version.files 0, (c.compare f.start f.limit).isLE
  fresh : ∀ level < numLevels, ∀ f ∈ s.version.files level, f.number < s.nextFileNumber
  scored : s.version.Scored

/-- The number of entries in some files. -/
def countEntries (contents : ℕ → List Entry) (files : List FileMetaData) : ℕ :=
  (files.map fun f => (contents f.number).length).sum

/-- The distance of all entries to the last level. -/
def measure (s : Drain) : ℕ :=
  potential numLevels fun level => countEntries s.contents (s.version.files level)

/-- **The loop drains.** -/
structure Drains (sizing : Sizing) (c : Comparator) (s : Drain) : Prop where
  /-- Whatever the turns meet, the loop ends. Without an error it ends because nothing is picked. -/
  ends : ∀ turns fuel, s.measure < fuel →
    ∃ result s', s.bgStep sizing c fuel turns = some (result, s') ∧
      (result = .ok () → s'.pickCompaction c = some (none, s')) ∧
      ∀ e, result = .error e → ∃ i, (turns i).error = some e
  /-- No pick panics, and what is picked are files of a level that is not the last one. -/
  picks : ∀ s', Reaches sizing c s s' → ∃ picked s'', s'.pickCompaction c = some (picked, s'') ∧
    ∀ x ∈ picked, x.level + 1 < numLevels ∧ x.inputs0 ≠ [] ∧ x.inputs0 ⊆ s'.version.files x.level

end Drain

/-! ### What is picked -/

/-- The inputs of a compaction are files of two levels of a version, whatever the comparator. -/
structure Compaction.Draws (v : Version) (x : Compaction) : Prop where
  level_lt : x.level + 1 < numLevels
  ne_nil : x.inputs0 ≠ []
  inputs0 : x.inputs0.Sublist (v.files x.level)
  inputs1 : x.inputs1.Sublist (v.files (x.level + 1))

section Picks

variable {c : Comparator} {v : Version} {level : ℕ} {f : FileMetaData} {inputs : List FileMetaData}

theorem Compaction.draws_setupOtherInputs (hlev : level + 1 < numLevels) (hne : inputs ≠ [])
    (hins : inputs.Sublist (v.files level)) : (setupOtherInputs c level v inputs).Draws v := by
  have hexpand : (expandInputs c level v inputs).1 ≠ [] ∧
      (expandInputs c level v inputs).1.Sublist (v.files level) ∧
      (expandInputs c level v inputs).2.Sublist (v.files (level + 1)) := by
    rw [expandInputs]
    split_ifs with hempty hgrow
    · exact ⟨hne, hins, v.sublist_getOverlappingInputs c _ _ _⟩
    · refine ⟨ne_nil_of_length_pos (Nat.zero_lt_of_lt hgrow.1), ?_, ?_⟩
      · exact v.sublist_getOverlappingInputs c _ _ _
      · exact v.sublist_getOverlappingInputs c _ _ _
    · exact ⟨hne, hins, v.sublist_getOverlappingInputs c _ _ _⟩
  exact ⟨hlev, hexpand.1, hexpand.2.1, hexpand.2.2⟩

theorem Compaction.startInputs_spec (hkeys : ∀ f ∈ v.files 0, (c.compare f.start f.limit).isLE)
    (hf : f ∈ v.files level) :
    startInputs c level v f ≠ [] ∧ (startInputs c level v f).Sublist (v.files level) := by
  rw [startInputs]
  split_ifs with hlev
  · subst hlev
    refine ⟨ne_nil_of_mem (v.mem_getOverlappingInputs_self c hf (hkeys f hf)), ?_⟩
    exact v.sublist_getOverlappingInputs c _ _ _
  · exact ⟨cons_ne_nil _ _, singleton_sublist.mpr hf⟩

theorem Version.Scored.exists_level (h : v.Scored) (hscore : ¬ v.compactionScore < 1) :
    ∃ level, level + 1 < numLevels ∧ v.compactionLevel = (level : ℤ) ∧ v.files level ≠ [] := by
  rcases h with h | h
  · rw [h.1] at hscore
    exact absurd (by norm_num) hscore
  · rw [h.1, not_lt] at hscore
    rw [h.2]
    exact v.bestLevel_spec hscore

theorem Version.scored_edited (edit : VersionEdit) : (v.edited c edit).Scored := .inr ⟨rfl, rfl⟩

theorem Version.exists_nextFile (pointer : Bytes) (hne : v.files level ≠ []) :
    ∃ f ∈ v.files level, v.nextFile c level pointer = some f := by
  obtain ⟨g, files, hfiles⟩ := exists_cons_of_ne_nil hne
  rcases h : v.nextFile c level pointer with _ | f
  · rw [nextFile, Option.or_eq_none_iff, hfiles] at h
    cases h.2
  · exact ⟨f, mem_of_nextFile h, rfl⟩

end Picks

namespace Drain

variable {sizing : Sizing} {c : Comparator} {s s' : Drain} {x : Compaction} {t : Turn}

theorem setUp_spec {level : ℕ} {f : FileMetaData}
    (hkeys : ∀ f ∈ s.version.files 0, (c.compare f.start f.limit).isLE)
    (hlev : level + 1 < numLevels) (hf : f ∈ s.version.files level) :
    s.setUp c level f = some (some (Compaction.ofFile c level s.version f),
        s.moved (Compaction.ofFile c level s.version f)) ∧
      (Compaction.ofFile c level s.version f).Draws s.version := by
  obtain ⟨hne, hsub⟩ := Compaction.startInputs_spec hkeys hf
  rw [setUp, if_neg (by rwa [List.isEmpty_iff])]
  exact ⟨rfl, Compaction.draws_setupOtherInputs hlev hne hsub⟩

/-- **What `pick_compaction` does with a well-formed version**: it does not panic, and it picks
files of two neighbouring levels, or nothing, in which case it picks nothing again. -/
theorem WellFormed.pickCompaction_cases (h : s.WellFormed c) :
    (s.version.pickCompaction c s.fileToCompact s.compactPointer = none ∧
      s.pickCompaction c = some (none, s.taken) ∧
      s.taken.pickCompaction c = some (none, s.taken)) ∨
    ∃ x, s.version.pickCompaction c s.fileToCompact s.compactPointer = some x ∧
      s.pickCompaction c = some (some x, s.taken.moved x) ∧ x.Draws s.version := by
  rcases hseek : s.version.seekFile s.fileToCompact with _ | ⟨level, f⟩
  · by_cases hscore : s.version.compactionScore < 1
    · have hnone : s.version.seekFile none = none := rfl
      left
      simp only [pickCompaction, Version.pickCompaction, taken, hseek, hnone, hscore, if_true,
        and_self]
    · obtain ⟨level, hlev, heq, hne⟩ := h.scored.exists_level hscore
      obtain ⟨f, hf, hnext⟩ :=
        @Version.exists_nextFile c s.version level (s.compactPointer level) hne
      have hpanic : ¬ ((level : ℤ) < 0 ∨ numLevels ≤ level + 1) := by omega
      obtain ⟨hsetUp, hdraws⟩ := @setUp_spec c s.taken level f h.keys hlev hf
      refine .inr ⟨Compaction.ofFile c level s.version f, ?_, ?_, hdraws⟩
      · simp only [Version.pickCompaction, hseek, if_neg hscore, heq, Int.toNat_natCast, hnext,
          Option.map_some]
      · simp only [pickCompaction, hseek, if_neg hscore, heq, Int.toNat_natCast,
          if_neg hpanic, hnext]
        exact hsetUp
  · obtain ⟨hlev, hf⟩ := Version.mem_of_seekFile hseek
    obtain ⟨hsetUp, hdraws⟩ := @setUp_spec c s.taken level f h.keys hlev hf
    refine .inr ⟨Compaction.ofFile c level s.version f, ?_, ?_, hdraws⟩
    · simp only [Version.pickCompaction, hseek]
    · simp only [pickCompaction, hseek]
      exact hsetUp

end Drain

/-! ### What a compaction does to the entries -/

namespace Drain

/-- **What a compaction can do**: it puts new files with entries of its inputs into the next level
and takes the inputs away. -/
structure Moves (c : Comparator) (x : Compaction) (s s' : Drain) (edit : VersionEdit)
    (added : List FileMetaData) : Prop where
  version : s'.version = s.version.edited c edit
  next : s.nextFileNumber ≤ s'.nextFileNumber
  contents : ∀ n < s.nextFileNumber, s'.contents n = s.contents n
  puts : Lsm.Puts s.version edit (x.level + 1) added
  deletes0 : ∀ f ∈ x.inputs0, edit.DeletesAt x.level f.number
  deletes1 : ∀ f ∈ x.inputs1, edit.DeletesAt (x.level + 1) f.number
  tables : ∀ f ∈ added, s'.contents f.number ≠ [] ∧ f.number < s'.nextFileNumber
  entries : countEntries s'.contents added ≤
    countEntries s.contents x.inputs0 + countEntries s.contents x.inputs1

variable {sizing : Sizing} {c : Comparator} {s s' : Drain} {x : Compaction} {t : Turn}
  {edit : VersionEdit} {added : List FileMetaData}

theorem length_entries (contents : ℕ → List Entry) (x : Compaction) :
    (x.entries c contents).length =
      countEntries contents x.inputs0 + countEntries contents x.inputs1 := by
  rw [Compaction.entries, length_insertionSort, flatMap_append, length_append,
    length_flatMap, length_flatMap]
  rfl

/-- The tables of a merge hold at most the entries of its inputs. -/
theorem countEntries_merge (sizing : Sizing) (c : Comparator) (t : Turn) (s : Tables)
    (x : Compaction) :
    countEntries (Lsm.writeTables s.contents (s.merge sizing c t.gaps t.smallestSnapshot x).tables)
        ((s.merge sizing c t.gaps t.smallestSnapshot x).tables.map (·.metadata sizing)) ≤
      countEntries s.contents x.inputs0 + countEntries s.contents x.inputs1 := by
  obtain ⟨hok, hflat⟩ := tables_mergeEntries sizing t.gaps (x.isBaseLevelForKey c)
    t.smallestSnapshot s.nextFileNumber (x.entries c s.contents)
  rw [Tables.merge]
  generalize mergeEntries sizing t.gaps _ _ _ _ = merged at *
  have hwrit : countEntries (Lsm.writeTables s.contents merged.tables)
      (merged.tables.map (·.metadata sizing)) =
        (merged.tables.flatMap TableOutput.entries).length := by
    rw [countEntries, map_map, length_flatMap]
    refine congrArg List.sum (map_congr_left fun u hu => ?_)
    exact congrArg List.length (Lsm.writeTables_of_mem hok.numbers hu)
  rw [hwrit, ← @length_entries c]
  refine (congrArg List.length hflat).trans_le ?_
  exact (kept_sublist _ _ _ _ _).length_le

/-- **One turn that carries out a compaction.** -/
theorem WellFormed.exists_moves (h : s.WellFormed c) (hx : x.Draws s.version) (sizing : Sizing)
    (t : Turn) : ∃ edit added, Moves c x s (s.worked sizing c t x) edit added := by
  have hlev := hx.level_lt
  rw [worked, Tables.doCompactionWork]
  split_ifs with htrivial
  · obtain ⟨f, hinputs0, hinputs1⟩ := Lsm.inputs_of_isTrivialMove htrivial
    have hf : f ∈ s.version.files x.level := hx.inputs0.subset (by simp [hinputs0])
    rw [hinputs0]
    refine ⟨Lsm.trivialEdit x f, [f], rfl, le_rfl, fun _ _ => rfl, Lsm.puts_trivialEdit hlev,
      ?_, ?_, ?_, ?_⟩
    · rw [hinputs0]
      exact forall_mem_singleton.mpr (Lsm.deletesAt_trivialEdit.mpr ⟨rfl, rfl⟩)
    · rw [hinputs1]
      exact fun _ hg => absurd hg not_mem_nil
    · exact forall_mem_singleton.mpr
        ⟨h.tables x.level (by omega) f hf, h.fresh x.level (by omega) f hf⟩
    · rw [hinputs0]
      exact Nat.le_add_right _ _
  · obtain ⟨hok, -⟩ := tables_mergeEntries sizing t.gaps (x.isBaseLevelForKey c)
      t.smallestSnapshot s.nextFileNumber (x.entries c s.contents)
    have hins : ∀ g ∈ x.inputs0 ++ x.inputs1, g.number < s.nextFileNumber := by
      refine forall_mem_append.mpr ⟨fun g hg => ?_, fun g hg => ?_⟩
      · exact h.fresh x.level (by omega) g (hx.inputs0.subset hg)
      · exact h.fresh (x.level + 1) hlev g (hx.inputs1.subset hg)
    refine ⟨Lsm.mergeEdit sizing x (s.merge sizing c t.gaps t.smallestSnapshot x).tables,
      (s.merge sizing c t.gaps t.smallestSnapshot x).tables.map (·.metadata sizing), rfl, hok.next,
      fun n hn => ?_,
      Lsm.puts_mergeEdit hlev fun u hu g hg => ?_, fun f hf => ?_, fun f hf => ?_, ?_,
      countEntries_merge sizing c t s.toTables x⟩
    · exact Lsm.writeTables_of_notMem fun u hu => (hn.trans_le (hok.fresh u hu).1).ne'
    · exact ((hins g hg).trans_le (hok.fresh u hu).1).ne
    · exact Lsm.deletesAt_mergeEdit.mpr (.inl ⟨rfl, f, hf, rfl⟩)
    · exact Lsm.deletesAt_mergeEdit.mpr (.inr ⟨rfl, f, hf, rfl⟩)
    · refine forall_mem_map.mpr fun u hu => ⟨fun hnil => ?_, (hok.fresh u hu).2⟩
      have hents : u.entries = [] := (Lsm.writeTables_of_mem hok.numbers hu).symm.trans hnil
      have hsmall := (hok.tables u hu).smallest
      rw [hents] at hsmall
      cases hsmall

/-- A file after a compaction was there before, or it is one of the new files. -/
theorem Moves.mem_files (h : Moves c x s s' edit added) {level : ℕ} {f : FileMetaData}
    (hf : f ∈ s'.version.files level) :
    f ∈ s.version.files level ∨ level = x.level + 1 ∧ f ∈ added := by
  rw [h.version, h.puts.mem_files_edited] at hf
  exact hf.imp_left fun hold => hold.2.1

/-- **A compaction keeps a version well formed.** Nothing is added to level 0. -/
theorem WellFormed.of_moves (h : s.WellFormed c) (hm : Moves c x s s' edit added) :
    s'.WellFormed c where
  tables level hlev f hf := by
    rcases hm.mem_files hf with hold | ⟨-, hnew⟩
    · rw [hm.contents _ (h.fresh level hlev f hold)]
      exact h.tables level hlev f hold
    · exact (hm.tables f hnew).1
  keys f hf := by
    rcases hm.mem_files hf with hold | ⟨hlev, -⟩
    · exact h.keys f hold
    · omega
  fresh level hlev f hf := by
    rcases hm.mem_files hf with hold | ⟨-, hnew⟩
    · exact (h.fresh level hlev f hold).trans_le hm.next
    · exact (hm.tables f hnew).2
  scored := by
    rw [hm.version]
    exact Version.scored_edited edit

/-! ### What falls -/

private theorem sum_filter_add_le {α : Type*} (w : α → ℕ) {p : α → Bool} {inputs files : List α}
    (hsub : inputs.Sublist files) (hp : ∀ a ∈ inputs, p a = false) :
    ((files.filter p).map w).sum + (inputs.map w).sum ≤ (files.map w).sum := by
  induction hsub with
  | slnil => exact le_rfl
  | @cons inputs files a hsub ih =>
    have hle := ih hp
    rw [filter_cons]
    split_ifs <;> simp only [map_cons, sum_cons] <;> omega
  | @cons_cons inputs files a hsub ih =>
    rw [forall_mem_cons] at hp
    have hle := ih hp.2
    rw [filter_cons_of_neg (by simp [hp.1])]
    simp only [map_cons, sum_cons]
    omega

/-- Files that are taken away are counted no more. -/
theorem Moves.countEntries_remaining (h : Moves c x s s' edit added) {level : ℕ}
    {inputs : List FileMetaData} (hsub : inputs.Sublist (s.version.files level))
    (hdeletes : ∀ f ∈ inputs, edit.DeletesAt level f.number) :
    countEntries s.contents (Lsm.remaining s.version edit level) + countEntries s.contents inputs ≤
      countEntries s.contents (s.version.files level) := by
  refine sum_filter_add_le _ hsub fun f hf => ?_
  have hnot : f ∉ Lsm.remaining s.version edit level := fun hmem =>
    (h.puts.mem_remaining.mp hmem).2 (hdeletes f hf)
  rw [Lsm.remaining, mem_filter, not_and, Bool.not_eq_true] at hnot
  exact hnot (hsub.subset hf)

theorem Moves.countEntries_files (h : Moves c x s s' edit added) (hs : s.WellFormed c) {level : ℕ}
    (hlev : level < numLevels) :
    countEntries s'.contents (s'.version.files level) =
      countEntries s.contents (Lsm.remaining s.version edit level) +
        if level = x.level + 1 then countEntries s'.contents added else 0 := by
  have hsame : countEntries s'.contents (Lsm.remaining s.version edit level) =
      countEntries s.contents (Lsm.remaining s.version edit level) := by
    refine congrArg List.sum (map_congr_left fun f hf => ?_)
    rw [h.contents _ (hs.fresh level hlev f (h.puts.mem_remaining.mp hf).1)]
  rw [← hsame, countEntries, h.version, h.puts.files_edited hlev,
    ((perm_insertionSort _ _).map _).sum_eq, map_append, sum_append]
  split_ifs <;> rfl

/-- **A compaction lowers the measure**, as its inputs have entries. -/
theorem Moves.measure_lt (h : Moves c x s s' edit added) (hs : s.WellFormed c)
    (hx : x.Draws s.version) : s'.measure < s.measure := by
  have hlev := hx.level_lt
  have hpos : 0 < countEntries s.contents x.inputs0 := by
    obtain ⟨f, files, hfiles⟩ := exists_cons_of_ne_nil hx.ne_nil
    have hf : f ∈ s.version.files x.level := hx.inputs0.subset (by simp [hfiles])
    have hents := length_pos_of_ne_nil (hs.tables x.level (by omega) f hf)
    rw [hfiles, countEntries, map_cons, sum_cons]
    omega
  have hfall : s'.measure + countEntries s.contents x.inputs0 ≤ s.measure := by
    refine potential_add_le hlev ?_ ?_ fun level hlt hne hne' => ?_
    · rw [h.countEntries_files hs (by omega), if_neg (by omega)]
      exact h.countEntries_remaining hx.inputs0 h.deletes0
    · have hremaining := h.countEntries_remaining hx.inputs1 h.deletes1
      have hents := h.entries
      rw [h.countEntries_files hs hlev, if_pos rfl]
      omega
    · have hremaining := @Moves.countEntries_remaining c s s' x edit added h level []
        (nil_sublist _) fun _ hf => absurd hf not_mem_nil
      rw [h.countEntries_files hs hlt, if_neg hne']
      exact (Nat.le_add_right _ _).trans hremaining
  omega

/-! ### The loop -/

/-- **What a turn can do**: the loop ends with nothing left to pick or with an error of the turn, or
a compaction leads to a well-formed version with a smaller measure. -/
theorem WellFormed.turn_cases (h : s.WellFormed c) (sizing : Sizing) (t : Turn) :
    (∃ s', turn sizing c t s = some (.inl s') ∧ s'.WellFormed c ∧ s'.measure < s.measure) ∨
      ∃ r : Result Unit × Drain, turn sizing c t s = some (.inr r) ∧
        (r.1 = .ok () → r.2.pickCompaction c = some (none, r.2)) ∧
        ∀ e, r.1 = .error e → t.error = some e := by
  rcases h.pickCompaction_cases with ⟨-, hpick, hagain⟩ | ⟨x, -, hpick, hx⟩
  · refine .inr ⟨_, by rw [turn, hpick], fun _ => hagain, fun e he => ?_⟩
    cases he
  · rcases herr : t.error with _ | e
    · have hs : WellFormed c (s.taken.moved x) := ⟨h.tables, h.keys, h.fresh, h.scored⟩
      obtain ⟨edit, added, hm⟩ := hs.exists_moves hx sizing t
      refine .inl ⟨_, ?_, hs.of_moves hm, hm.measure_lt hs hx⟩
      rw [turn, hpick]
      simp only [herr]
    · have hturn : turn sizing c t s = some (.inr (.error e, s.taken.moved x)) := by
        rw [turn, hpick]
        simp only [herr]
      refine .inr ⟨_, hturn, fun hok => ?_, fun e' he => ?_⟩
      · cases hok
      · cases he
        rfl

/-- The loop only reaches well-formed versions. -/
theorem WellFormed.of_reaches (h : s.WellFormed c) (hreaches : Reaches sizing c s s') :
    s'.WellFormed c := by
  induction hreaches with
  | refl => exact h
  | tail _ hturn ih =>
    obtain ⟨t, hturn⟩ := hturn
    rcases ih.turn_cases sizing t with ⟨s'', heq, hs'', -⟩ | ⟨r, heq, -⟩
    · rw [hturn] at heq
      cases heq
      exact hs''
    · rw [hturn] at heq
      cases heq

/-- **Background compaction drains**, from every well-formed version with every mark. -/
theorem WellFormed.drains (h : s.WellFormed c) (sizing : Sizing) : s.Drains sizing c where
  ends turns fuel hfuel := by
    have hbody : ∀ i s, WellFormed c s →
        (∃ s', turn sizing c (turns i) s = some (.inl s') ∧ WellFormed c s' ∧
          measure s' < measure s) ∨
        ∃ r : Result Unit × Drain, turn sizing c (turns i) s = some (.inr r) ∧
          ((r.1 = .ok () → r.2.pickCompaction c = some (none, r.2)) ∧
            ∀ e, r.1 = .error e → ∃ i, (turns i).error = some e) := by
      intro i s hs
      refine (hs.turn_cases sizing (turns i)).imp_right ?_
      rintro ⟨r, hturn, hok, herr⟩
      exact ⟨r, hturn, hok, fun e he => ⟨i, herr e he⟩⟩
    obtain ⟨⟨result, s'⟩, hloop, hend⟩ := exists_loopWithin measure hbody h hfuel 0
    exact ⟨result, s', hloop, hend⟩
  picks s' hreaches := by
    rcases (h.of_reaches hreaches).pickCompaction_cases with ⟨-, hpick, -⟩ | ⟨x, -, hpick, hx⟩
    · exact ⟨_, _, hpick, fun x hx => by cases hx⟩
    · refine ⟨_, _, hpick, fun y hy => ?_⟩
      cases hy
      exact ⟨hx.level_lt, hx.ne_nil, hx.inputs0.subset⟩

/-- Four files of level 0, the last of which overlaps all others. -/
def fullLevel0Files : List FileMetaData :=
  [Version.keyedFile 1 [1] [3], Version.keyedFile 2 [2] [4], Version.keyedFile 3 [7] [8],
    Version.keyedFile 4 [3] [9]]

/-- A version with a full level 0, one file of which is marked by reads. -/
def fullLevel0 : Drain where
  version := Version.finalize { files := fun level => if level = 0 then fullLevel0Files else [] }
  contents n := (fullLevel0Files.filter (·.number == n)).flatMap fun f =>
    [⟨f.smallest, [0]⟩, ⟨f.largest, [0]⟩]
  nextFileNumber := 5
  compactPointer _ := []
  fileToCompact := some (0, 3)

theorem wellFormed_fullLevel0 : fullLevel0.WellFormed bytewiseComparator where
  tables := by decide
  keys := by decide
  fresh := by decide
  scored := .inr ⟨rfl, rfl⟩

theorem drains_fullLevel0 : fullLevel0.WellFormed bytewiseComparator ∧
    fullLevel0.Drains ⟨List.length, List.length⟩ bytewiseComparator :=
  ⟨wellFormed_fullLevel0, wellFormed_fullLevel0.drains _⟩

end Drain

/-! ### The tree -/

namespace Lsm

variable {c : Comparator} {sizing : Sizing} {st : Lsm bytewiseComparator} {x : Compaction}
  {mark : Option (ℕ × ℕ)}

/-- The state of the loop in a state of the tree, with the mark that reads have left. -/
def drain (st : Lsm c) (mark : Option (ℕ × ℕ)) : Drain := { st with fileToCompact := mark }

theorem scored_doCompactionWork (gaps : ℕ → ℕ) (x : Compaction) :
    (st.doCompactionWork sizing gaps x).version.Scored := by
  rcases doCompactionWork_cases sizing gaps st x with ⟨f, -, -, heq⟩ | heq <;>
  · rw [heq]
    exact Version.scored_edited _

theorem scored_step (h : st.version.Scored) (a : Action) : (step sizing st a).version.Scored := by
  refine tables_step (P := fun v _ => v.Scored) h ?_ fun _ gaps x _ _ =>
    scored_doCompactionWork gaps x
  rcases flush_cases sizing st with ⟨-, heq⟩ | ⟨m, -, -, heq⟩ | ⟨m, first, last, -, -, -, heq⟩
  · rwa [heq]
  · rwa [heq]
  · rw [heq]
    exact Version.scored_edited _

/-- **Every state of a run of the tree is well formed**, so background compaction drains there. -/
theorem wellFormed_run (sizing : Sizing) (actions : List Action) (mark : Option (ℕ × ℕ)) :
    ((Runs.run (step sizing) empty actions).drain mark).WellFormed bytewiseComparator := by
  obtain ⟨flushed, rotated, h⟩ := inv_run sizing actions
  refine ⟨fun level _ f hf hnil => ?_, fun f hf => ?_, fun level _ => h.levels.fresh level, ?_⟩
  · obtain ⟨e, he, -⟩ := (h.levels.files level f hf).exists_smallest
    exact ne_nil_of_mem he hnil
  · exact bytewise_isLE.mpr (h.levels.start_le_limit hf)
  · exact @Runs.invariant_of_step _ _ (step sizing) empty actions (fun st => st.version.Scored)
      (fun _ a hscored => scored_step hscored a) (.inl ⟨rfl, rfl⟩)

/-- **A compaction of the tree in the background is a turn of the loop.** -/
theorem turn_drain (h : (st.drain mark).WellFormed bytewiseComparator) (gaps : ℕ → ℕ)
    (hx : st.pickedBy (.background mark) = some x) :
    Drain.turn sizing bytewiseComparator ⟨gaps, st.smallestSnapshotSequence, none⟩ (st.drain mark) =
      some (.inl ((st.compact sizing (.background mark) gaps true).drain none)) := by
  rcases h.pickCompaction_cases with ⟨hnone, -⟩ | ⟨y, hy, hpick, -⟩
  · exact absurd (hx.symm.trans hnone) (Option.some_ne_none x)
  · obtain rfl : x = y := Option.some_injective _ (hx.symm.trans hy)
    rw [compact, hx, Drain.turn, hpick]
    rfl

end Lsm
end PulsearcDb
