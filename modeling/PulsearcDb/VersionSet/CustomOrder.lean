import PulsearcDb.VersionSet.Picking

/-!
# Picking under another order of the keys

Most choices of `version_set/version_set.rs` go through the comparator of the database. The hull of
several files does not: `get_user_range` compares the user keys as byte strings. Under an order that
differs from that of the bytes the hull can be empty, and a file that overlaps the inputs of a
compaction is then left out.

The compactions that are picked under a total order take in all the files they have to, in every
version, exactly when the order is that of the byte strings.
-/

namespace PulsearcDb

/-- The comparator orders all byte strings as they are. -/
def Comparator.OrdersBytes (c : Comparator) : Prop :=
  ∀ a b, c.compare a b = bytewiseComparator.compare a b

namespace Version

/-- A version under a comparator: the keys of a file are in order, and so are the files of a level
below level 0. -/
structure Ordered (c : Comparator) (v : Version) : Prop where
  files : ∀ level, ∀ f ∈ v.files level, (icmp c f.smallest f.largest).isLE
  levels : ∀ level, 0 < level →
    (v.files level).Pairwise fun f g => icmp c f.largest g.smallest = .lt
  finalized : v = v.finalize

/-- The compaction comes from `pick_compaction` or from `pick_manual_compaction`. -/
def Picks (c : Comparator) (v : Version) (x : Compaction) : Prop :=
  (∃ fileToCompact compactPointer, v.pickCompaction c fileToCompact compactPointer = some x) ∨
    ∃ level first last, v.pickManualCompaction c level first last = some x

end Version

/-- The inputs of a compaction include every file they overlap, in the next level and, for level 0,
in their own. -/
structure Compaction.Covers (c : Comparator) (v : Version) (x : Compaction) : Prop where
  inputs1 : ∀ f ∈ x.inputs0, ∀ g ∈ v.files (x.level + 1), f.Overlap c g → g ∈ x.inputs1
  level0 : x.level = 0 → ∀ f ∈ x.inputs0, ∀ g ∈ v.files 0, f.Overlap c g → g ∈ x.inputs0

variable {v : Version} {c : Comparator} {x : Compaction}

theorem Compaction.expandInputs_subset (c : Comparator) {level : ℕ} {inputs : List FileMetaData}
    (hins : inputs ⊆ v.files level) :
    (expandInputs c level v inputs).1 ⊆ v.files level ∧
      (expandInputs c level v inputs).2 ⊆ v.files (level + 1) := by
  rw [expandInputs]
  split_ifs
  · exact ⟨hins, v.getOverlappingInputs_subset c _ _ _⟩
  · exact ⟨v.getOverlappingInputs_subset c _ _ _, v.getOverlappingInputs_subset c _ _ _⟩
  · exact ⟨hins, v.getOverlappingInputs_subset c _ _ _⟩

private theorem Version.Picks.eq_setupOtherInputs (h : v.Picks c x) :
    ∃ level inputs, inputs ⊆ v.files level ∧ x = Compaction.setupOtherInputs c level v inputs := by
  have hof : ∀ level f, f ∈ v.files level → ∃ inputs, inputs ⊆ v.files level ∧
      Compaction.ofFile c level v f = Compaction.setupOtherInputs c level v inputs := by
    intro level f hf
    refine ⟨_, ?_, rfl⟩
    split_ifs with h0
    · exact h0 ▸ v.getOverlappingInputs_subset c _ _ _
    · simpa using hf
  obtain ⟨fileToCompact, compactPointer, hx⟩ | ⟨level, first, last, hx⟩ := h
  · rw [pickCompaction] at hx
    split at hx
    · rename_i level f hseek
      obtain rfl := Option.some.inj hx
      exact ⟨level, hof level f (mem_of_seekFile hseek).2⟩
    · split_ifs at hx
      obtain ⟨f, hf, rfl⟩ := Option.map_eq_some_iff.mp hx
      exact ⟨_, hof _ f (mem_of_nextFile hf)⟩
  · rw [pickManualCompaction] at hx
    split_ifs at hx
    obtain rfl := Option.some.inj hx
    exact ⟨level, _, v.getOverlappingInputs_subset c _ _ _, rfl⟩

/-- The inputs of a compaction are files of the version on which it was picked. -/
theorem Version.Picks.inputs (h : v.Picks c x) :
    x.inputVersion = v ∧ x.inputs0 ⊆ v.files x.level ∧ x.inputs1 ⊆ v.files (x.level + 1) := by
  obtain ⟨level, inputs, hins, rfl⟩ := h.eq_setupOtherInputs
  exact ⟨rfl, Compaction.expandInputs_subset c hins⟩

/-! ### The order of the bytes -/

namespace Comparator.OrdersBytes

variable (hc : c.OrdersBytes)
include hc

/-- **The comparators that order the byte strings as they are** differ in their names and separators
only. -/
@[elab_as_elim] theorem elim {motive : Comparator → Prop}
    (h : ∀ name separator successor, motive { bytewiseComparator with
      name, findShortestSeparator := separator, findShortSuccessor := successor }) : motive c := by
  obtain ⟨name, compare, separator, successor, transCmp⟩ := c
  obtain rfl : compare = bytewiseComparator.compare := funext fun a => funext fun b => hc a b
  exact h name separator successor

theorem icmp_eq : icmp c = icmp bytewiseComparator := hc.elim fun _ _ _ => rfl

theorem getOverlappingInputs_eq :
    Version.getOverlappingInputs c = Version.getOverlappingInputs bytewiseComparator :=
  hc.elim fun _ _ _ => by with_unfolding_all rfl

theorem setupOtherInputs_eq :
    Compaction.setupOtherInputs c = Compaction.setupOtherInputs bytewiseComparator := by
  have hlarge : largestInternalKey c = largestInternalKey bytewiseComparator :=
    hc.elim fun _ _ _ => rfl
  unfold Compaction.setupOtherInputs Compaction.expandInputs Compaction.overlapped
  rw [hc.getOverlappingInputs_eq, hlarge]

theorem pickCompaction_eq :
    Version.pickCompaction c = Version.pickCompaction bytewiseComparator := by
  unfold Version.pickCompaction Compaction.ofFile Version.nextFile
  rw [hc.setupOtherInputs_eq, hc.getOverlappingInputs_eq, hc.icmp_eq]

theorem pickManualCompaction_eq :
    Version.pickManualCompaction c = Version.pickManualCompaction bytewiseComparator := by
  unfold Version.pickManualCompaction
  rw [hc.setupOtherInputs_eq, hc.getOverlappingInputs_eq]

end Comparator.OrdersBytes

/-! ### Total orders -/

/-- The claim of a compaction under a comparator that orders all byte strings as they are. -/
private theorem covers_of_isPicked (hc : c.OrdersBytes) (hx : x.IsPicked v) : x.Covers c v := by
  have hle : ∀ a b, (c.compare a b).isLE = true ↔ a ≤ b := fun a b => by
    rw [hc]
    exact BytewiseComparator.isLE_compare
  obtain ⟨hrange, -, -⟩ := getUserRange_spec hx.inputs0.ne_nil
  refine ⟨fun f hf g hg hover => ?_, fun h0 f hf g hg hover => ?_⟩
  · by_contra hnot
    obtain ⟨hstart, hlimit⟩ := hrange f hf
    rcases hx.not_overlap hg hnot with hlt | hlt
    · exact absurd (hstart.trans ((hle _ _).mp hover.1)) (not_le.mpr hlt)
    · exact absurd (((hle _ _).mp hover.2).trans hlimit) (not_le.mpr hlt)
  · by_contra hnot
    obtain ⟨hstart, hlimit⟩ := hrange f hf
    rcases hx.inputs0.closed h0 g hg hnot with hlt | hlt
    · exact absurd (hstart.trans ((hle _ _).mp hover.1)) (not_le.mpr hlt)
    · exact absurd (((hle _ _).mp hover.2).trans hlimit) (not_le.mpr hlt)

/-- Under the order of the byte strings the right files are picked. -/
theorem Version.Picks.covers (hc : c.OrdersBytes) (hv : v.Ordered c) (hx : v.Picks c x) :
    x.Covers c v := by
  have hvalid : ∀ f ∈ v.files 0, f.start ≤ f.limit := by
    intro f hf
    have hle := hv.files 0 f hf
    rw [hc.icmp_eq, isLE_icmp_bytewise] at hle
    exact userKey_le_of_ikOrd_le hle
  refine covers_of_isPicked hc ?_
  obtain ⟨fileToCompact, compactPointer, hx⟩ | ⟨level, first, last, hx⟩ := hx
  · rw [hc.pickCompaction_eq] at hx
    refine isPicked_pickCompaction hvalid ?_ hx
    rw [hv.finalized]
    exact v.compactionLevel_finalize
  · rw [hc.pickManualCompaction_eq] at hx
    exact isPicked_pickManualCompaction hvalid hx

section Swapped

variable {c : Comparator} {a b : Bytes}

/-- A file with one key. -/
def singleFile (number : ℕ) (key : Bytes) : FileMetaData where
  number
  fileSize := 100
  smallest := internalKey key 1 .value
  largest := internalKey key 1 .value

/-- Two files in level 1, and in level 2 one with the key of the first. -/
def swappedVersion (a b : Bytes) : Version :=
  Version.finalize { files := fun level =>
    if level = 1 then [singleFile 1 a, singleFile 2 b]
    else if level = 2 then [singleFile 3 a] else [] }

private theorem files_swappedVersion (a b : Bytes) :
    (swappedVersion a b).files 1 = [singleFile 1 a, singleFile 2 b] ∧
      (swappedVersion a b).files 2 = [singleFile 3 a] := ⟨rfl, rfl⟩

@[simp] theorem start_singleFile (number : ℕ) (key : Bytes) : (singleFile number key).start = key :=
  userKey_internalKey _ _ _

@[simp] theorem limit_singleFile (number : ℕ) (key : Bytes) : (singleFile number key).limit = key :=
  userKey_internalKey _ _ _

theorem ordered_swappedVersion (hlt : c.compare a b = .lt) : (swappedVersion a b).Ordered c where
  files level f hf := by
    obtain ⟨number, key, rfl⟩ : ∃ number key, f = singleFile number key := by
      rw [swappedVersion, Version.files_finalize] at hf
      dsimp only at hf
      split_ifs at hf
      · rcases List.mem_pair.mp hf with rfl | rfl <;> exact ⟨_, _, rfl⟩
      · exact ⟨_, _, List.mem_singleton.mp hf⟩
      · cases hf
    rw [singleFile, @Std.ReflCmp.compare_self _ (icmp c)]
    rfl
  levels level _ := by
    rw [swappedVersion, Version.files_finalize]
    dsimp only
    split_ifs
    · simp [singleFile, icmp, hlt]
    · exact List.pairwise_singleton _ _
    · exact List.Pairwise.nil
  finalized := rfl

/-- The hull of the two files is empty under the comparator. -/
theorem not_covers_swappedVersion (hlt : c.compare a b = .lt) (hbytes : b < a) :
    ∃ x, (swappedVersion a b).Picks c x ∧ ¬ x.Covers c (swappedVersion a b) := by
  obtain ⟨hlevel1, hlevel2⟩ := files_swappedVersion a b
  have hall : (swappedVersion a b).getOverlappingInputs c 1 none none =
      [singleFile 1 a, singleFile 2 b] := by
    rw [Version.getOverlappingInputs_of_ne _ _ one_ne_zero, hlevel1]
    rfl
  have hhull : getUserRange [singleFile 1 a, singleFile 2 b] = (b, a) := by
    simp [getUserRange, hbytes, hbytes.not_gt]
  have hnone : Compaction.overlapped c 1 (swappedVersion a b) [singleFile 1 a, singleFile 2 b] =
      [] := by
    rw [Compaction.overlapped, hhull, Version.getOverlappingInputs_of_ne _ _ two_ne_zero, hlevel2]
    simp [overlaps, hlt]
  have hins : Compaction.expandInputs c 1 (swappedVersion a b) [singleFile 1 a, singleFile 2 b] =
      ([singleFile 1 a, singleFile 2 b], []) := by
    rw [Compaction.expandInputs, hnone]
    rfl
  refine ⟨Compaction.setupOtherInputs c 1 (swappedVersion a b) [singleFile 1 a, singleFile 2 b],
    .inr ⟨1, none, none, ?_⟩, fun hcovers => ?_⟩
  · rw [Version.pickManualCompaction, hall]
    rfl
  · have hmem := hcovers.inputs1 (singleFile 1 a)
      (by simp [Compaction.setupOtherInputs, hins]) (singleFile 3 a)
      (by simp [Compaction.setupOtherInputs, hlevel2])
      (by simp [FileMetaData.Overlap, @Std.ReflCmp.compare_self _ c.compare])
    simp [Compaction.setupOtherInputs, hins] at hmem

end Swapped

/-- Two total orders that differ order some pair of keys the other way. -/
theorem exists_swapped [Std.LawfulEqCmp c.compare] (hc : ¬ c.OrdersBytes) :
    ∃ a b, c.compare a b = .lt ∧ b < a := by
  by_contra hnot
  push Not at hnot
  refine hc fun a b => ?_
  rcases lt_trichotomy a b with hlt | rfl | hlt
  · rw [bytewise_eq_lt.mpr hlt]
    rcases hcmp : c.compare a b with _ | _ | _
    · rfl
    · exact absurd (Std.LawfulEqCmp.eq_of_compare hcmp) hlt.ne
    · exact absurd hlt (not_lt.mpr (hnot b a (Std.OrientedCmp.gt_iff_lt.mp hcmp)))
  · rw [@Std.ReflCmp.compare_self _ c.compare, bytewise_eq_eq.mpr rfl]
  · rw [bytewise_eq_gt.mpr hlt]
    rcases hcmp : c.compare a b with _ | _ | _
    · exact absurd hlt (not_lt.mpr (hnot a b hcmp))
    · exact absurd (Std.LawfulEqCmp.eq_of_compare hcmp) hlt.ne'
    · rfl

/-- **Which total orders the compactions respect.** In every well-formed version every compaction
that is picked takes in all the files it overlaps, exactly when the comparator orders the byte
strings as they are. -/
theorem covers_iff (c : Comparator) [Std.LawfulEqCmp c.compare] :
    (∀ v : Version, v.Ordered c → ∀ x, v.Picks c x → x.Covers c v) ↔ c.OrdersBytes := by
  refine ⟨fun hcovers => ?_, fun hc v hv x hx => hx.covers hc hv⟩
  by_contra hc
  obtain ⟨a, b, hlt, hbytes⟩ := exists_swapped hc
  obtain ⟨x, hx, hnot⟩ := not_covers_swappedVersion hlt hbytes
  exact hnot (hcovers _ (ordered_swappedVersion hlt) x hx)

instance : Std.LawfulEqCmp bytewiseComparator.compare where
  eq_of_compare h := bytewise_eq_eq.mp h

/-- The default comparator is one: the same files, in its order. -/
theorem covers_bytewise :
    ∃ x, (swappedVersion [97] [98]).Picks bytewiseComparator x ∧
      x.Covers bytewiseComparator (swappedVersion [97] [98]) := by
  have hsome : ((swappedVersion [97] [98]).pickManualCompaction bytewiseComparator 1 none
      none).isSome := by decide +kernel
  have hpicks : (swappedVersion [97] [98]).Picks bytewiseComparator (Option.get _ hsome) :=
    .inr ⟨1, none, none, (Option.some_get hsome).symm⟩
  exact ⟨_, hpicks, (covers_iff bytewiseComparator).mpr (fun _ _ => rfl) _
    (ordered_swappedVersion (by decide)) _ hpicks⟩

/-- `struct ReverseBytewise` of the documentation. -/
def reverseBytewise : Comparator where
  name := "myapp.ReverseBytewise"
  compare a b := BytewiseComparator.compare b a
  findShortestSeparator start _ := start
  findShortSuccessor key := key
  transCmp :=
    { eq_swap := Std.OrientedCmp.eq_swap
      isLE_trans := fun h h' => Std.TransCmp.isLE_trans h' h }

/-- In the reverse order the file of level 2 with the key `b` is left out of a compaction of the
files of level 1 with the keys `b` and `a`. -/
theorem not_covers_reverseBytewise :
    (swappedVersion [98] [97]).Ordered reverseBytewise ∧
      ∃ x, (swappedVersion [98] [97]).Picks reverseBytewise x ∧
        ¬ x.Covers reverseBytewise (swappedVersion [98] [97]) :=
  ⟨ordered_swappedVersion (by decide), not_covers_swappedVersion (by decide) (by decide)⟩

end PulsearcDb
