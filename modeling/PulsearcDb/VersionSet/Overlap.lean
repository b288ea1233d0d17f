import PulsearcDb.Foundation.Cursor
import PulsearcDb.VersionSet.Search

/-!
# Files that overlap a range of keys

`get_overlapping_inputs` of `version_set/version_set.rs` scans a level for the files that overlap a
range of user keys. In level 0, where files overlap each other, a file that reaches beyond the range
extends it, and the scan starts over.
-/

namespace PulsearcDb

open List

namespace FileMetaData

/-- The user key of the first entry. -/
def start (f : FileMetaData) : Bytes := userKey f.smallest

/-- The user key of the last entry. -/
def limit (f : FileMetaData) : Bytes := userKey f.largest

end FileMetaData

/-- The ranges of two files overlap under the comparator. -/
def FileMetaData.Overlap (c : Comparator) (f g : FileMetaData) : Prop :=
  (c.compare f.start g.limit).isLE ∧ (c.compare g.start f.limit).isLE

instance (c : Comparator) (f g : FileMetaData) : Decidable (f.Overlap c g) :=
  inferInstanceAs (Decidable (_ ∧ _))

/-! ### The scan -/

/-- Neither of the two `continue`s of the scan is taken. -/
def overlaps (c : Comparator) (first last : Option Bytes) (f : FileMetaData) : Bool :=
  !(first.any fun b => c.compare f.limit b == .lt) &&
    !(last.any fun e => c.compare f.start e == .gt)

/-- The lower end of the range after a file of level 0, and whether the scan starts over. -/
def extendFirst (c : Comparator) (first : Option Bytes) (f : FileMetaData) : Option Bytes × Bool :=
  match first with
  | none => (some f.start, false)
  | some b => if c.compare f.start b = .lt then (some f.start, true) else (some b, false)

/-- The upper end of the range after a file of level 0, and whether the scan starts over. -/
def extendLast (c : Comparator) (last : Option Bytes) (f : FileMetaData) : Option Bytes × Bool :=
  match last with
  | none => (some f.limit, false)
  | some e => if c.compare f.limit e = .gt then (some f.limit, true) else (some e, false)

/-- How often the lower end can still be extended. -/
def firstSlack (c : Comparator) (files : List FileMetaData) : Option Bytes → ℕ
  | none => files.length + 1
  | some b => files.countP fun f => c.compare f.start b == .lt

/-- How often the upper end can still be extended. -/
def lastSlack (c : Comparator) (files : List FileMetaData) : Option Bytes → ℕ
  | none => files.length + 1
  | some e => files.countP fun f => c.compare f.limit e == .gt

variable {f : FileMetaData} {files : List FileMetaData} {c : Comparator} {level : ℕ}
  {first last : Option Bytes}

private theorem firstSlack_extendFirst (c : Comparator) (first : Option Bytes) (hf : f ∈ files) :
    firstSlack c files (extendFirst c first f).1 ≤ firstSlack c files first ∧
      ((extendFirst c first f).2 = true →
        firstSlack c files (extendFirst c first f).1 < firstSlack c files first) := by
  cases first with
  | none => exact ⟨countP_le_length.trans (Nat.le_succ _), fun h => by cases h⟩
  | some b =>
    rw [extendFirst]
    split_ifs with hlt
    · have hd : firstSlack c files (some f.start) < firstSlack c files (some b) := by
        refine Cursor.countP_lt (fun g hg => ?_) hf (beq_iff_eq.mpr hlt) ?_
        · exact beq_iff_eq.mpr (Std.TransCmp.lt_trans (beq_iff_eq.mp hg) hlt)
        · simp only [@Std.ReflCmp.compare_self _ c.compare]
          rfl
      exact ⟨hd.le, fun _ => hd⟩
    · exact ⟨le_rfl, fun h => by cases h⟩

private theorem lastSlack_extendLast (c : Comparator) (last : Option Bytes) (hf : f ∈ files) :
    lastSlack c files (extendLast c last f).1 ≤ lastSlack c files last ∧
      ((extendLast c last f).2 = true →
        lastSlack c files (extendLast c last f).1 < lastSlack c files last) := by
  cases last with
  | none => exact ⟨countP_le_length.trans (Nat.le_succ _), fun h => by cases h⟩
  | some e =>
    rw [extendLast]
    split_ifs with hgt
    · have hd : lastSlack c files (some f.limit) < lastSlack c files (some e) := by
        refine Cursor.countP_lt (fun g hg => ?_) hf (beq_iff_eq.mpr hgt) ?_
        · exact beq_iff_eq.mpr (Std.TransCmp.gt_trans (beq_iff_eq.mp hg) hgt)
        · simp only [@Std.ReflCmp.compare_self _ c.compare]
          rfl
      exact ⟨hd.le, fun _ => hd⟩
    · exact ⟨le_rfl, fun h => by cases h⟩

/-- The loop of `get_overlapping_inputs` from the `i`-th file on. -/
def overlapLoop (c : Comparator) (level : ℕ) (files : List FileMetaData) (i : ℕ)
    (first last : Option Bytes) (result : List FileMetaData) : List FileMetaData :=
  if hi : i < files.length then
    let f := files.get ⟨i, hi⟩
    if overlaps c first last f = false then overlapLoop c level files (i + 1) first last result
    else if level ≠ 0 then overlapLoop c level files (i + 1) first last (result ++ [f])
    else
      let first' := extendFirst c first f
      let last' := extendLast c last f
      if first'.2 || last'.2 then overlapLoop c level files 0 first'.1 last'.1 []
      else overlapLoop c level files (i + 1) first'.1 last'.1 (result ++ [f])
  else result
termination_by (firstSlack c files first + lastSlack c files last) * (files.length + 1) +
  (files.length - i)
decreasing_by
  · omega
  · omega
  · rename_i hrestart
    have hfst := firstSlack_extendFirst c first (get_mem files ⟨i, hi⟩)
    have hlast := lastSlack_extendLast c last (get_mem files ⟨i, hi⟩)
    refine Nat.lt_of_lt_of_le ?_ (Nat.le_add_right _ (files.length - i))
    rw [← Nat.succ_le_iff, Nat.sub_zero, Nat.succ_eq_add_one, Nat.add_assoc, ← Nat.succ_mul]
    refine Nat.mul_le_mul_right (files.length + 1) ?_
    rcases Bool.or_eq_true_iff.mp hrestart with h | h
    · exact Nat.add_lt_add_of_lt_of_le (hfst.2 h) hlast.1
    · exact Nat.add_lt_add_of_le_of_lt hfst.1 (hlast.2 h)
  · have hle := Nat.mul_le_mul_right (files.length + 1)
      (Nat.add_le_add (firstSlack_extendFirst c first (get_mem files ⟨i, hi⟩)).1
        (lastSlack_extendLast c last (get_mem files ⟨i, hi⟩)).1)
    exact Nat.add_lt_add_of_le_of_lt hle (by omega)

namespace Version

variable (c : Comparator) (v : Version)

/-- The files that overlap a range. -/
def getOverlappingInputs (level : ℕ) (first last : Option Bytes) : List FileMetaData :=
  overlapLoop c level (v.files level) 0 first last []

/-- Whether a file overlaps a range. -/
def overlapInLevel (level : ℕ) (first last : Option Bytes) : Bool :=
  !(v.getOverlappingInputs c level first last).isEmpty

end Version

/-! ### Ranges of keys -/

/-- A range of user keys, both ends included. -/
structure KeyRange where
  first : Bytes
  last : Bytes

namespace KeyRange

variable (c : Comparator)

/-- The range overlaps the range of a file. -/
def Meets (r : KeyRange) (f : FileMetaData) : Prop :=
  (c.compare r.first f.limit).isLE ∧ (c.compare f.start r.last).isLE

instance (r : KeyRange) (f : FileMetaData) : Decidable (r.Meets c f) :=
  inferInstanceAs (Decidable (_ ∧ _))

/-- The range of a file is part of the range. -/
def Contains (r : KeyRange) (f : FileMetaData) : Prop :=
  (c.compare r.first f.start).isLE ∧ (c.compare f.limit r.last).isLE

/-- The range is part of another one. -/
def Within (r r' : KeyRange) : Prop :=
  (c.compare r'.first r.first).isLE ∧ (c.compare r.last r'.last).isLE

/-- The range reaches to the ends that are given. -/
def Encloses (first last : Option Bytes) (r : KeyRange) : Prop :=
  (∀ b ∈ first, (c.compare r.first b).isLE) ∧ ∀ e ∈ last, (c.compare e r.last).isLE

/-- **Closed under overlap**: the range contains every file that it overlaps. -/
def Closed (files : List FileMetaData) (r : KeyRange) : Prop :=
  ∀ f ∈ files, r.Meets c f → r.Contains c f

/-- The least range around another one that is closed under overlap. -/
structure IsClosure (files : List FileMetaData) (r h : KeyRange) : Prop where
  within : r.Within c h
  closed : h.Closed c files
  least : ∀ k : KeyRange, r.Within c k → k.Closed c files → h.Within c k

variable {c} {r r' r'' : KeyRange} {f : FileMetaData}

theorem Within.refl (r : KeyRange) : r.Within c r := ⟨Std.ReflCmp.isLE_rfl, Std.ReflCmp.isLE_rfl⟩

theorem Within.trans (h : r.Within c r') (h' : r'.Within c r'') : r.Within c r'' :=
  ⟨Std.TransCmp.isLE_trans h'.1 h.1, Std.TransCmp.isLE_trans h.2 h'.2⟩

theorem encloses_some_iff {b e : Bytes} :
    r.Encloses c (some b) (some e) ↔ (⟨b, e⟩ : KeyRange).Within c r := by
  simp [Encloses, Within]

theorem Encloses.mono (h : r.Encloses c first last) (hw : r.Within c r') :
    r'.Encloses c first last :=
  ⟨fun b hb => Std.TransCmp.isLE_trans hw.1 (h.1 b hb),
    fun e he => Std.TransCmp.isLE_trans (h.2 e he) hw.2⟩

theorem Contains.mono (h : r.Contains c f) (hw : r.Within c r') : r'.Contains c f :=
  ⟨Std.TransCmp.isLE_trans hw.1 h.1, Std.TransCmp.isLE_trans h.2 hw.2⟩

/-- A range contains a file with keys only if it overlaps it. -/
theorem Contains.meets (h : r.Contains c f) (hkeys : (c.compare f.start f.limit).isLE) :
    r.Meets c f :=
  ⟨Std.TransCmp.isLE_trans h.1 hkeys, Std.TransCmp.isLE_trans hkeys h.2⟩

theorem Meets.mono (h : r.Meets c f) (hw : r.Within c r') : r'.Meets c f :=
  ⟨Std.TransCmp.isLE_trans hw.1 h.1, Std.TransCmp.isLE_trans h.2 hw.2⟩

end KeyRange

/-! ### The steps of the scan -/

section Scan

variable {c : Comparator} {first last : Option Bytes} {f g : FileMetaData}

theorem overlaps_iff : overlaps c first last f = true ↔
    (∀ b ∈ first, (c.compare b f.limit).isLE) ∧ ∀ e ∈ last, (c.compare f.start e).isLE := by
  have hfst : ∀ b, (c.compare f.limit b == .lt) = false ↔ (c.compare b f.limit).isLE = true := by
    intro b
    rw [← rank_le_rank, ← not_lt, rank_lt_rank, beq_eq_false_iff_ne]
  have hlast : ∀ e, (c.compare f.start e == .gt) = false ↔ (c.compare f.start e).isLE = true := by
    intro e
    rw [Ordering.isLE_iff_ne_gt, beq_eq_false_iff_ne]
  rw [overlaps, Bool.and_eq_true, Bool.not_eq_true', Bool.not_eq_true']
  cases first <;> cases last <;> simp [hfst, hlast]

theorem overlaps_some_iff {b e : Bytes} :
    overlaps c (some b) (some e) f = true ↔ (⟨b, e⟩ : KeyRange).Meets c f := by
  simp [overlaps_iff, KeyRange.Meets]

/-- The lower end behind a file that was matched. -/
theorem extendFirst_spec (first : Option Bytes) (f : FileMetaData) :
    ∃ b, (extendFirst c first f).1 = some b ∧ (c.compare b f.start).isLE ∧
      (∀ b' ∈ first, (c.compare b b').isLE) ∧ (b = f.start ∨ b ∈ first) ∧
      ((extendFirst c first f).2 = false → ∀ b' ∈ first, b = b') := by
  cases first with
  | none => exact ⟨_, rfl, Std.ReflCmp.isLE_rfl, by simp, .inl rfl, by simp⟩
  | some b =>
    rw [extendFirst]
    split_ifs with hlt
    · exact ⟨_, rfl, Std.ReflCmp.isLE_rfl, by simp [hlt], .inl rfl, by simp⟩
    · rw [← rank_lt_rank, not_lt, rank_le_rank] at hlt
      exact ⟨_, rfl, hlt, by simp [Std.ReflCmp.isLE_rfl], .inr rfl, by simp⟩

/-- The upper end behind a file that was matched. -/
theorem extendLast_spec (last : Option Bytes) (f : FileMetaData) :
    ∃ e, (extendLast c last f).1 = some e ∧ (c.compare f.limit e).isLE ∧
      (∀ e' ∈ last, (c.compare e' e).isLE) ∧ (e = f.limit ∨ e ∈ last) ∧
      ((extendLast c last f).2 = false → ∀ e' ∈ last, e = e') := by
  cases last with
  | none => exact ⟨_, rfl, Std.ReflCmp.isLE_rfl, by simp, .inl rfl, by simp⟩
  | some e =>
    rw [extendLast]
    split_ifs with hgt
    · have hle : (c.compare e f.limit).isLE = true := by
        rw [Std.OrientedCmp.gt_iff_lt] at hgt
        simp [hgt]
      exact ⟨_, rfl, Std.ReflCmp.isLE_rfl, by simpa using hle, .inl rfl, by simp⟩
    · exact ⟨_, rfl, Ordering.isLE_iff_ne_gt.mpr hgt, by simp [Std.ReflCmp.isLE_rfl], .inr rfl,
        by simp⟩

private theorem filter_drop_eq {α : Type*} (p : α → Bool) {l : List α} {i : ℕ} (hi : i < l.length) :
    (l.drop i).filter p =
      (if p (l.get ⟨i, hi⟩) then [l.get ⟨i, hi⟩] else []) ++ (l.drop (i + 1)).filter p := by
  rw [← getElem_cons_drop hi, filter_cons, get_eq_getElem]
  split_ifs <;> rfl

private theorem mem_take_add_one {α : Type*} {l : List α} {i : ℕ} (hi : i < l.length) {P : α → Prop}
    (hp : ∀ a ∈ l.take i, P a) (hlast : P (l.get ⟨i, hi⟩)) : ∀ a ∈ l.take (i + 1), P a := by
  intro a ha
  rw [take_add_one, getElem?_eq_getElem hi, mem_append] at ha
  rcases ha with ha | ha
  · exact hp a ha
  · rw [Option.toList_some, mem_singleton] at ha
    exact ha ▸ hlast

/-- The range behind a file that was matched. -/
private theorem exists_extended (first last : Option Bytes) (f : FileMetaData) :
    ∃ r : KeyRange, (extendFirst c first f).1 = some r.first ∧
      (extendLast c last f).1 = some r.last ∧ r.Encloses c first last ∧ r.Contains c f ∧
      (∀ k : KeyRange, k.Encloses c first last → k.Contains c f → r.Within c k) ∧
      (((extendFirst c first f).2 || (extendLast c last f).2) = false →
        (∀ b ∈ first, r.first = b) ∧ ∀ e ∈ last, r.last = e) := by
  obtain ⟨b, hb, hs, hfst, horigin, hsame⟩ := @extendFirst_spec c first f
  obtain ⟨e, he, hlimit, hlast, horigin', hsame'⟩ := @extendLast_spec c last f
  refine ⟨⟨b, e⟩, hb, he, ⟨hfst, hlast⟩, ⟨hs, hlimit⟩, fun k hk hc => ?_, fun h => ?_⟩
  · constructor
    · rcases horigin with rfl | h
      · exact hc.1
      · exact hk.1 b h
    · rcases horigin' with rfl | h
      · exact hc.2
      · exact hk.2 e h
  · rw [Bool.or_eq_false_iff] at h
    exact ⟨hsame h.1, hsame' h.2⟩

private theorem overlapLoop_some {i : ℕ} {result : List FileMetaData} :
    ∀ {b e : Bytes}, first = some b → last = some e →
    (∀ g ∈ files.take i, (⟨b, e⟩ : KeyRange).Meets c g → (⟨b, e⟩ : KeyRange).Contains c g) →
    ∃ h : KeyRange, KeyRange.IsClosure c files ⟨b, e⟩ h ∧
      (overlapLoop c 0 files i first last result = files.filter (fun g => h.Meets c g) ∨
        h = ⟨b, e⟩ ∧ overlapLoop c 0 files i first last result =
          result ++ (files.drop i).filter (fun g => h.Meets c g)) := by
  fun_induction overlapLoop c 0 files i first last result
  case case1 i first last result hi f hover ih =>
    intro b e hfst hlast hp
    subst hfst hlast
    have hnot : ¬ (⟨b, e⟩ : KeyRange).Meets c f := fun h =>
      Bool.false_ne_true (hover.symm.trans (overlaps_some_iff.mpr h))
    obtain ⟨h, hclos, hres⟩ := ih rfl rfl (mem_take_add_one hi hp fun hm => absurd hm hnot)
    refine ⟨h, hclos, hres.imp_right fun ⟨heq, hrest⟩ => ⟨heq, ?_⟩⟩
    subst heq
    rw [hrest, filter_drop_eq _ hi, if_neg (by exact fun h => hnot (of_decide_eq_true h)),
      nil_append]
  case case2 i first last result hi f hover hlev ih => exact absurd rfl hlev
  case case3 i first last result hi f hover hlev first' last' hrestart ih =>
    intro b e hfst hlast hp
    subst hfst hlast
    have hm := overlaps_some_iff.mp (Bool.eq_true_of_not_eq_false hover)
    obtain ⟨r, hr, hr', hencloses, hc, hl, -⟩ := @exists_extended c (some b) (some e) f
    rw [KeyRange.encloses_some_iff] at hencloses
    obtain ⟨h, hclos, hres⟩ := ih hr hr' (by simp)
    refine ⟨h, ⟨hencloses.trans hclos.within, hclos.closed, fun k hk hclosed => ?_⟩, .inl ?_⟩
    · have hf := hclosed f (get_mem files ⟨i, hi⟩) (hm.mono hk)
      exact hclos.least k (hl k (KeyRange.encloses_some_iff.mpr hk) hf) hclosed
    · rcases hres with hres | ⟨-, hres⟩
      · exact hres
      · rw [hres, nil_append, drop_zero]
  case case4 i first last result hi f hover hlev first' last' hrestart ih =>
    intro b e hfst hlast hp
    subst hfst hlast
    have hm := overlaps_some_iff.mp (Bool.eq_true_of_not_eq_false hover)
    obtain ⟨⟨b', e'⟩, hr, hr', -, hc, -, hsame⟩ := @exists_extended c (some b) (some e) f
    obtain ⟨hb, he⟩ := hsame (Bool.eq_false_of_not_eq_true hrestart)
    obtain rfl : b' = b := hb b rfl
    obtain rfl : e' = e := he e rfl
    obtain ⟨h, hclos, hres⟩ := ih hr hr' (mem_take_add_one hi hp fun _ => hc)
    refine ⟨h, hclos, hres.imp_right fun ⟨heq, hrest⟩ => ⟨heq, ?_⟩⟩
    subst heq
    rw [hrest, filter_drop_eq _ hi, if_pos (by exact decide_eq_true hm), append_assoc]
  case case5 i first last result hi =>
    intro b e hfst hlast hp
    rw [take_of_length_le (not_lt.mp hi)] at hp
    refine ⟨⟨b, e⟩, ⟨.refl _, hp, fun k hk _ => hk⟩, .inr ⟨rfl, ?_⟩⟩
    rw [drop_of_length_le (not_lt.mp hi), filter_nil, append_nil]

/-- Files that are not matched are passed over. -/
private theorem overlapLoop_skip {before files : List FileMetaData}
    (hskip : ∀ g ∈ before, overlaps c first last g = false) :
    overlapLoop c 0 (before ++ files) 0 first last [] =
      overlapLoop c 0 (before ++ files) before.length first last [] := by
  induction before using List.reverseRecOn generalizing files with
  | nil => rfl
  | append_singleton before g ih =>
    have hi : before.length < (before ++ [g] ++ files).length := by simp
    have hget : (before ++ [g] ++ files).get ⟨before.length, hi⟩ = g := by simp
    have hg : overlaps c first last g = false := hskip g (by simp)
    have hrest := @ih ([g] ++ files) fun g' hg' => hskip g' (by simp [hg'])
    rw [← append_assoc] at hrest
    rw [hrest, overlapLoop, dif_pos hi]
    simp only [hget, hg, if_true, length_append, length_singleton]

theorem overlapLoop_of_find?_eq_none (h : files.find? (overlaps c first last) = none) :
    overlapLoop c 0 files 0 first last [] = [] := by
  have hskip := @overlapLoop_skip c first last files [] fun g hg => by
    simpa using find?_eq_none.mp h g hg
  rw [append_nil] at hskip
  rw [hskip, overlapLoop, dif_neg (lt_irrefl _)]

/-- **The scan of level 0** finds the least range around the given ends and the first file that is
matched that is closed under overlap, and returns the files that this range overlaps. -/
theorem overlapLoop_level0 (hf : files.find? (overlaps c first last) = some f) :
    ∃ h : KeyRange, h.Encloses c first last ∧ h.Contains c f ∧ h.Closed c files ∧
      (∀ k : KeyRange, k.Encloses c first last → k.Contains c f → k.Closed c files → h.Within c k) ∧
      (overlapLoop c 0 files 0 first last [] = files.filter (fun g => h.Meets c g) ∨
        ¬ h.Meets c f ∧ overlapLoop c 0 files 0 first last [] =
          f :: files.filter (fun g => h.Meets c g)) := by
  obtain ⟨hover, before, after, rfl, hbefore⟩ := find?_eq_some_iff_append.mp hf
  have hskip : ∀ g ∈ before, overlaps c first last g = false := fun g hg => by
    simpa using hbefore g hg
  obtain ⟨r, hr, hr', hencloses, hc, hl, hsame⟩ := @exists_extended c first last f
  have hi : before.length < (before ++ f :: after).length := by simp
  have hget : (before ++ f :: after).get ⟨before.length, hi⟩ = f := by simp
  rw [overlapLoop_skip hskip, overlapLoop, dif_pos hi]
  simp only [hget, hover, Bool.true_eq_false, if_false, ne_eq, not_true_eq_false, hr, hr']
  split_ifs with hrestart
  · obtain ⟨h, hclos, hres⟩ := @overlapLoop_some (before ++ f :: after) c _ _ 0 [] _ _ rfl rfl
      fun g hg => absurd hg (by simp)
    refine ⟨h, hencloses.mono hclos.within, hc.mono hclos.within, hclos.closed,
      fun k hk hk' hclosed => hclos.least k (hl k hk hk') hclosed, .inl ?_⟩
    rcases hres with hres | ⟨-, hres⟩
    · exact hres
    · rw [hres, nil_append, drop_zero]
  · -- A range that is not extended only loses files, so none of those passed over is in it.
    obtain ⟨hfst, hlast⟩ := hsame (Bool.eq_false_of_not_eq_true hrestart)
    have hpassed : ∀ g ∈ before, ¬ r.Meets c g := by
      intro g hg hm
      refine Bool.false_ne_true ((hskip g hg).symm.trans (overlaps_iff.mpr ⟨?_, ?_⟩))
      · exact fun b hb => hfst b hb ▸ hm.1
      · exact fun e he => hlast e he ▸ hm.2
    have htake : (before ++ f :: after).take (before.length + 1) = before ++ [f] := by
      simp [take_append]
    have hdrop : (before ++ f :: after).drop (before.length + 1) = after := by
      simp [drop_append]
    have hnone : before.filter (fun g => r.Meets c g) = [] :=
      filter_eq_nil_iff.mpr fun g hg => by simpa using hpassed g hg
    obtain ⟨h, hclos, hres⟩ := @overlapLoop_some (before ++ f :: after) c _ _
      (before.length + 1) [f] _ _ rfl rfl (by
        rw [htake]
        intro g hg hm
        rcases mem_append.mp hg with hg | hg
        · exact absurd hm (hpassed g hg)
        · exact mem_singleton.mp hg ▸ hc)
    refine ⟨h, hencloses.mono hclos.within, hc.mono hclos.within, hclos.closed,
      fun k hk hk' hclosed => hclos.least k (hl k hk hk') hclosed, ?_⟩
    rcases hres with hres | ⟨rfl, hres⟩
    · exact .inl hres
    · rw [nil_append, hres, hdrop, filter_append, hnone, nil_append, filter_cons]
      by_cases hm : r.Meets c f
      · exact .inl (by simp [hm])
      · exact .inr ⟨hm, by simp [hm]⟩

end Scan

/-! ### What the scan returns -/

theorem overlapLoop_of_ne (hlev : level ≠ 0) (files : List FileMetaData) (i : ℕ)
    (first last : Option Bytes) (result : List FileMetaData) :
    overlapLoop c level files i first last result =
      result ++ (files.drop i).filter (overlaps c first last) := by
  induction h : files.length - i generalizing i result with
  | zero =>
    rw [overlapLoop, dif_neg (by omega), drop_of_length_le (by omega), filter_nil, append_nil]
  | succ n ih =>
    have hi : i < files.length := by omega
    rw [overlapLoop, dif_pos hi, ← getElem_cons_drop hi]
    simp only [if_pos hlev, get_eq_getElem]
    split_ifs with hover
    · rw [ih _ _ (by omega), filter_cons_of_neg (by rw [hover]; decide)]
    · rw [ih _ _ (by omega), filter_cons_of_pos (by simpa using hover), append_assoc,
        singleton_append]

/-- Below level 0 the scan is a filter. -/
theorem Version.getOverlappingInputs_of_ne (c : Comparator) (v : Version) (hlev : level ≠ 0)
    (first last : Option Bytes) :
    v.getOverlappingInputs c level first last = (v.files level).filter (overlaps c first last) := by
  rw [getOverlappingInputs, overlapLoop_of_ne hlev, nil_append, drop_zero]

private theorem mem_of_mem_push {result : List FileMetaData} {g : FileMetaData} (hg : g ∈ files)
    (hf : f ∈ result ++ [g] ∨ f ∈ files) : f ∈ result ∨ f ∈ files := by
  rcases hf with hf | hf
  · rcases mem_append.mp hf with hf | hf
    · exact .inl hf
    · exact .inr (mem_singleton.mp hf ▸ hg)
  · exact .inr hf

theorem mem_overlapLoop {i : ℕ} {result : List FileMetaData}
    (hf : f ∈ overlapLoop c level files i first last result) : f ∈ result ∨ f ∈ files := by
  fun_induction overlapLoop c level files i first last result with
  | case1 i first last result hi g hover ih => exact ih hf
  | case2 i first last result hi g hover hlev ih =>
    exact mem_of_mem_push (get_mem files ⟨i, hi⟩) (ih hf)
  | case3 i first last result hi g hover hlev first' last' hrestart ih =>
    exact .inr ((ih hf).resolve_left not_mem_nil)
  | case4 i first last result hi g hover hlev first' last' hrestart ih =>
    exact mem_of_mem_push (get_mem files ⟨i, hi⟩) (ih hf)
  | case5 => exact .inl hf

/-- Only files of the level are returned, whatever the comparator. -/
theorem Version.getOverlappingInputs_subset (c : Comparator) (v : Version) (level : ℕ)
    (first last : Option Bytes) : v.getOverlappingInputs c level first last ⊆ v.files level :=
  fun _ hf => (mem_overlapLoop hf).resolve_left not_mem_nil

/-! ### Level 0 -/

namespace Version

variable (c : Comparator) (v : Version)

/-- In level 0 the scan of a range with two ends is a filter by its closure, also when the ends are
not in order. -/
theorem exists_getOverlappingInputs_eq (first last : Bytes) :
    ∃ h : KeyRange, KeyRange.IsClosure c (v.files 0) ⟨first, last⟩ h ∧
      v.getOverlappingInputs c 0 (some first) (some last) =
        (v.files 0).filter (fun f => h.Meets c f) := by
  obtain ⟨h, hclos, hres⟩ := @overlapLoop_some (v.files 0) c _ _ 0 [] first last rfl rfl
    fun g hg => absurd hg (by simp)
  refine ⟨h, hclos, ?_⟩
  rcases hres with hres | ⟨-, hres⟩
  · exact hres
  · rw [getOverlappingInputs, hres, nil_append, drop_zero]

/-- A scan of a range with two ends returns files in the order of their level. -/
theorem sublist_getOverlappingInputs (level : ℕ) (first last : Bytes) :
    (v.getOverlappingInputs c level (some first) (some last)).Sublist (v.files level) := by
  by_cases hlev : level = 0
  · subst hlev
    obtain ⟨h, -, hfilt⟩ := v.exists_getOverlappingInputs_eq c first last
    rw [hfilt]
    exact filter_sublist
  · rw [getOverlappingInputs_of_ne _ _ hlev]
    exact filter_sublist

/-- A file of level 0 is among those that overlap it. -/
theorem mem_getOverlappingInputs_self (hf : f ∈ v.files 0)
    (hkeys : (c.compare f.start f.limit).isLE) :
    f ∈ v.getOverlappingInputs c 0 (some f.start) (some f.limit) := by
  obtain ⟨h, hclos, hfilt⟩ := v.exists_getOverlappingInputs_eq c f.start f.limit
  have hm : (⟨f.start, f.limit⟩ : KeyRange).Meets c f := ⟨hkeys, hkeys⟩
  rw [hfilt, mem_filter, decide_eq_true_eq]
  exact ⟨hf, hm.mono hclos.within⟩

/-- **In level 0 the scan returns the files that overlap the closure of the range**, in the order of
the level, and no other file overlaps one of them. -/
theorem getOverlappingInputs_closure {first last : Bytes} (hle : (c.compare first last).isLE) :
    ∃ h : KeyRange, (c.compare h.first h.last).isLE ∧
      KeyRange.IsClosure c (v.files 0) ⟨first, last⟩ h ∧
      v.getOverlappingInputs c 0 (some first) (some last) =
        (v.files 0).filter (fun f => h.Meets c f) ∧
      ∀ f ∈ v.files 0, f ∉ v.getOverlappingInputs c 0 (some first) (some last) →
        ∀ g ∈ v.getOverlappingInputs c 0 (some first) (some last), ¬ f.Overlap c g := by
  obtain ⟨h, hclos, hfilt⟩ := v.exists_getOverlappingInputs_eq c first last
  refine ⟨h, ?_, hclos, hfilt, fun f hf hout g hg hov => hout ?_⟩
  · exact Std.TransCmp.isLE_trans hclos.within.1 (Std.TransCmp.isLE_trans hle hclos.within.2)
  · rw [hfilt, mem_filter, decide_eq_true_eq] at hg
    have hc := hclos.closed g hg.1 hg.2
    rw [hfilt, mem_filter, decide_eq_true_eq]
    exact ⟨hf, Std.TransCmp.isLE_trans hc.1 hov.2, Std.TransCmp.isLE_trans hov.1 hc.2⟩

/-- A file whose keys have the user keys `first` and `last`. -/
def keyedFile (number : ℕ) (first last : Bytes) : FileMetaData where
  number
  fileSize := 1
  smallest := internalKey first 1 .value
  largest := internalKey last 1 .value

/-- A level 0 in which the second file overlaps only the first one, and the third one none. -/
def chainedLevel0 : Version where
  files level := if level = 0 then
    [keyedFile 1 [4] [6], keyedFile 2 [2] [4], keyedFile 3 [8] [9]] else []

theorem getOverlappingInputs_closure_chained :
    (bytewiseComparator.compare [5] [5]).isLE ∧
    ∃ h : KeyRange, (bytewiseComparator.compare h.first h.last).isLE ∧
      KeyRange.IsClosure bytewiseComparator (chainedLevel0.files 0) ⟨[5], [5]⟩ h ∧
      chainedLevel0.getOverlappingInputs bytewiseComparator 0 (some [5]) (some [5]) =
        (chainedLevel0.files 0).filter (fun f => h.Meets bytewiseComparator f) ∧
      ∀ f ∈ chainedLevel0.files 0,
        f ∉ chainedLevel0.getOverlappingInputs bytewiseComparator 0 (some [5]) (some [5]) →
        ∀ g ∈ chainedLevel0.getOverlappingInputs bytewiseComparator 0 (some [5]) (some [5]),
          ¬ f.Overlap bytewiseComparator g :=
  ⟨by decide, getOverlappingInputs_closure bytewiseComparator chainedLevel0 (by decide)⟩

example : chainedLevel0.getOverlappingInputs bytewiseComparator 0 (some [5]) (some [5]) =
    [keyedFile 1 [4] [6], keyedFile 2 [2] [4]] := by decide +kernel

end Version

/-! ### Ranges with open ends -/

/-- Some key is in the range of the file and in the range that is asked for. -/
def FileMetaData.InRange (c : Comparator) (first last : Option Bytes) (f : FileMetaData) : Prop :=
  ∃ key, (c.compare f.start key).isLE ∧ (c.compare key f.limit).isLE ∧
    (∀ b ∈ first, (c.compare b key).isLE) ∧ ∀ e ∈ last, (c.compare key e).isLE

theorem FileMetaData.InRange.overlaps (h : f.InRange c first last) :
    overlaps c first last f = true := by
  obtain ⟨key, hs, hlimit, hfst, hlast⟩ := h
  exact overlaps_iff.mpr ⟨fun b hb => Std.TransCmp.isLE_trans (hfst b hb) hlimit,
    fun e he => Std.TransCmp.isLE_trans hs (hlast e he)⟩

theorem FileMetaData.InRange.start_le (h : f.InRange c first last) :
    (c.compare f.start f.limit).isLE := by
  obtain ⟨key, hs, hlimit, -⟩ := h
  exact Std.TransCmp.isLE_trans hs hlimit

namespace Version

variable (c : Comparator) (v : Version)

/-- Every file of the level with a key in the range is returned. -/
def SelectsAll (level : ℕ) (first last : Option Bytes) : Prop :=
  ∀ f ∈ v.files level, f.InRange c first last → f ∈ v.getOverlappingInputs c level first last

/-- **No gap in level 0**: a range that reaches to the given ends and around the first file that
overlaps what is asked for, and that is closed under overlap, overlaps all files with a key in what
is asked for. -/
def Connected (first last : Option Bytes) : Prop :=
  ∀ f, (v.files 0).find? (overlaps c first last) = some f → ∀ k : KeyRange,
    k.Encloses c first last → k.Contains c f → k.Closed c (v.files 0) →
    ∀ g ∈ v.files 0, g.InRange c first last → k.Meets c g

/-- With both ends given there is no gap. -/
theorem connected_some (first last : Bytes) : v.Connected c (some first) (some last) := by
  intro f _ k hk _ _ g _ hg
  exact (overlaps_some_iff.mp hg.overlaps).mono (KeyRange.encloses_some_iff.mp hk)

/-- **When all files of a range are selected.** -/
theorem selectsAll_iff (level : ℕ) (first last : Option Bytes) :
    v.SelectsAll c level first last ↔ (level = 0 → v.Connected c first last) := by
  rcases eq_or_ne level 0 with rfl | hlev
  · constructor
    · intro h _ f hf k hk hc hclosed g hg hin
      obtain ⟨r, -, hfile, -, hl, hres⟩ := overlapLoop_level0 hf
      have hmem := h g hg hin
      have hm : r.Meets c g := by
        rw [getOverlappingInputs] at hmem
        rcases hres with hres | ⟨-, hres⟩
        · rw [hres, mem_filter, decide_eq_true_eq] at hmem
          exact hmem.2
        · rw [hres, mem_cons, mem_filter, decide_eq_true_eq] at hmem
          rcases hmem with rfl | hmem
          · exact hfile.meets hin.start_le
          · exact hmem.2
      exact hm.mono (hl k hk hc hclosed)
    · intro h g hg hin
      obtain ⟨f, hf⟩ := Option.isSome_iff_exists.mp (find?_isSome.mpr ⟨g, hg, hin.overlaps⟩)
      obtain ⟨r, hencloses, hfile, hclosed, -, hres⟩ := overlapLoop_level0 hf
      have hm := h rfl f hf r hencloses hfile hclosed g hg hin
      have hmem : g ∈ (v.files 0).filter (fun g => r.Meets c g) :=
        mem_filter.mpr ⟨hg, decide_eq_true hm⟩
      rw [getOverlappingInputs]
      rcases hres with hres | ⟨-, hres⟩
      · exact hres ▸ hmem
      · exact hres ▸ mem_cons_of_mem f hmem
  · refine iff_of_true (fun f hf hin => ?_) fun h => absurd h hlev
    rw [getOverlappingInputs_of_ne _ _ hlev]
    exact mem_filter.mpr ⟨hf, hin.overlaps⟩

/-- A level 0 of two files that do not overlap, the older one with the larger keys. -/
def gappedLevel0 : Version where
  files level := if level = 0 then [keyedFile 1 [7] [9], keyedFile 2 [1] [3]] else []

/-- **An open range leaves out a file**: the first file closes it. -/
theorem not_selectsAll_gappedLevel0 :
    gappedLevel0.getOverlappingInputs bytewiseComparator 0 none none = [keyedFile 1 [7] [9]] ∧
      (keyedFile 2 [1] [3]).InRange bytewiseComparator none none ∧
      ¬ gappedLevel0.SelectsAll bytewiseComparator 0 none none := by
  have hins : gappedLevel0.getOverlappingInputs bytewiseComparator 0 none none =
      [keyedFile 1 [7] [9]] := by decide +kernel
  have hin : (keyedFile 2 [1] [3]).InRange bytewiseComparator none none :=
    ⟨[2], by decide, by decide, by simp, by simp⟩
  refine ⟨hins, hin, fun h => ?_⟩
  have hmem := h (keyedFile 2 [1] [3]) (by decide) hin
  rw [hins] at hmem
  exact absurd hmem (by decide)

end Version

end PulsearcDb
