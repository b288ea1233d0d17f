import PulsearcDb.Format

/-!
# Separators

The index of a table has short keys between the blocks, which a comparator makes:
`find_shortest_separator` replaces the last key of a block by a key that is still before the first
key of the next block, and `find_short_successor` replaces the last key of the table.
`Comparator.Separates` is what the table builder relies on. The bytewise comparator has it, and the
comparator of internal keys has it when the one of user keys does.
-/

namespace PulsearcDb

open List

/-- The keys that a comparator makes lie where they should. -/
structure Comparator.Separates (c : Comparator) : Prop where
  separator : ∀ {start limit}, c.compare start limit = .lt →
    (c.compare start (c.findShortestSeparator start limit)).isLE ∧
      c.compare (c.findShortestSeparator start limit) limit = .lt
  unchanged : ∀ {start limit}, c.compare start limit = .eq →
    c.findShortestSeparator start limit = start
  successor : ∀ key, (c.compare key (c.findShortSuccessor key)).isLE

/-! ### Byte strings -/

namespace BytewiseComparator

variable {x y : UInt8}

theorem lt_succ_of_ne (h : x ≠ 0xff) : x < x + 1 := by
  have hlt := x.toNat_lt
  have hne : x.toNat ≠ 255 := fun heq => h (UInt8.toNat_inj.mp heq)
  rw [UInt8.lt_iff_toNat_lt, UInt8.toNat_add, UInt8.toNat_one]
  omega

theorem findShortestSeparator_cons_self (x : UInt8) (s l : Bytes) :
    findShortestSeparator (x :: s) (x :: l) = x :: findShortestSeparator s l := by
  simp only [findShortestSeparator, diffIndex, if_true, length_cons, take_succ_cons,
    getD_cons_succ, Nat.succ_min_succ, Nat.succ_lt_succ_iff, cons_append]
  split_ifs <;> rfl

theorem findShortestSeparator_cons_of_ne (h : x ≠ y) (s l : Bytes) :
    findShortestSeparator (x :: s) (y :: l) = if x < 0xff ∧ x + 1 < y then [x + 1] else x :: s := by
  simp [findShortestSeparator, diffIndex, h]

/-- A separator is the string itself or lies strictly between the two strings. -/
theorem findShortestSeparator_cases (start limit : Bytes) :
    findShortestSeparator start limit = start ∨
      start < findShortestSeparator start limit ∧ findShortestSeparator start limit < limit := by
  induction start generalizing limit with
  | nil => exact .inl (by simp [findShortestSeparator])
  | cons x s ih =>
    cases limit with
    | nil => exact .inl (by simp [findShortestSeparator])
    | cons y l =>
      by_cases hxy : x = y
      · subst hxy
        rw [findShortestSeparator_cons_self]
        refine (ih l).imp (congrArg (x :: ·)) fun ⟨hstart, hl⟩ => ?_
        exact ⟨cons_lt_cons_iff.mpr (.inr ⟨rfl, hstart⟩), cons_lt_cons_iff.mpr (.inr ⟨rfl, hl⟩)⟩
      · rw [findShortestSeparator_cons_of_ne hxy]
        split_ifs with hbyte
        · exact .inr ⟨cons_lt_cons_iff.mpr (.inl (lt_succ_of_ne hbyte.1.ne)),
            cons_lt_cons_iff.mpr (.inl hbyte.2)⟩
        · exact .inl rfl

theorem findShortestSeparator_self (key : Bytes) : findShortestSeparator key key = key := by
  rcases findShortestSeparator_cases key key with heq | ⟨hstart, hl⟩
  · exact heq
  · exact absurd (hstart.trans hl) (lt_irrefl key)

theorem le_findShortSuccessor (key : Bytes) : key ≤ findShortSuccessor key := by
  induction key with
  | nil => exact le_rfl
  | cons x key ih =>
    rw [findShortSuccessor]
    split_ifs with hx
    · exact (cons_lt_cons_iff.mpr (.inl (lt_succ_of_ne hx))).le
    · rcases ih.lt_or_eq with hlt | heq
      · exact (cons_lt_cons_iff.mpr (.inr ⟨rfl, hlt⟩)).le
      · exact (congrArg (x :: ·) heq).le

end BytewiseComparator

open BytewiseComparator in
theorem separates_bytewiseComparator : bytewiseComparator.Separates where
  separator {start limit} h := by
    have hlt : start < limit := bytewise_eq_lt.mp h
    have hbetween : start ≤ findShortestSeparator start limit ∧
        findShortestSeparator start limit < limit := by
      rcases findShortestSeparator_cases start limit with heq | ⟨hstart, hl⟩
      · rw [heq]
        exact ⟨le_rfl, hlt⟩
      · exact ⟨hstart.le, hl⟩
    exact ⟨isLE_compare.mpr hbetween.1, compare_eq_lt.mpr hbetween.2⟩
  unchanged h := bytewise_eq_eq.mp h ▸ findShortestSeparator_self _
  successor key := isLE_compare.mpr (le_findShortSuccessor key)

/-! ### Internal keys -/

/-- The tag of a shortened key: the first of all tags. -/
def maxTag : Bytes := putFixed64 (packSequenceAndType maxSequenceNumber .value)

/-- A shortened user key becomes an internal key. -/
def retag (c : Comparator) (ik short : Bytes) : Bytes :=
  if short.length < (userKey ik).length ∧ c.compare (userKey ik) short = .lt then short ++ maxTag
  else ik

/-- `struct InternalKeyComparator`. -/
def internalKeyComparator (c : Comparator) : Comparator where
  name := "pulsearc-db.InternalKeyComparator"
  compare := icmp c
  findShortestSeparator start limit :=
    retag c start (c.findShortestSeparator (userKey start) (userKey limit))
  findShortSuccessor key := retag c key (c.findShortSuccessor (userKey key))
  transCmp := inferInstance

variable {c : Comparator} {ik limit short : Bytes}

theorem userKey_append_maxTag (short : Bytes) : userKey (short ++ maxTag) = short :=
  userKey_append_putFixed64 short _

theorem icmp_eq_lt_of_userKey {a b : Bytes} (h : c.compare (userKey a) (userKey b) = .lt) :
    icmp c a b = .lt := by
  rw [icmp, h]

/-- A key is left as it is, or replaced by the first internal key of the shorter user key. -/
theorem retag_cases (c : Comparator) (ik short : Bytes) :
    retag c ik short = ik ∨
      retag c ik short = internalKey short maxSequenceNumber .value ∧
        icmp c ik (retag c ik short) = .lt := by
  rw [retag]
  split_ifs with hs
  · refine .inr ⟨rfl, icmp_eq_lt_of_userKey ?_⟩
    rw [userKey_append_maxTag, hs.2]
  · exact .inl rfl

theorem eq_or_lt_retag (c : Comparator) (ik short : Bytes) :
    retag c ik short = ik ∨ icmp c ik (retag c ik short) = .lt :=
  (retag_cases c ik short).imp_right And.right

/-- A key keeps its place or goes forward. -/
theorem isLE_retag (c : Comparator) (ik short : Bytes) : (icmp c ik (retag c ik short)).isLE := by
  rcases eq_or_lt_retag c ik short with heq | hlt
  · rw [heq]
    exact Std.ReflCmp.isLE_rfl
  · rw [hlt]
    rfl

/-- A separator of internal keys is the key itself, or a key with a user key that is between the two
user keys. -/
theorem findShortestSeparator_cases (hc : c.Separates) (h : icmp c ik limit = .lt) :
    (internalKeyComparator c).findShortestSeparator ik limit = ik ∨
      c.compare (userKey ((internalKeyComparator c).findShortestSeparator ik limit))
        (userKey limit) = .lt := by
  have hdef : (internalKeyComparator c).findShortestSeparator ik limit =
      retag c ik (c.findShortestSeparator (userKey ik) (userKey limit)) := rfl
  rw [hdef, retag]
  split_ifs with hs
  · refine .inr ?_
    rw [userKey_append_maxTag]
    rcases hord : c.compare (userKey ik) (userKey limit) with _ | _ | _
    · exact (hc.separator hord).2
    · rw [hc.unchanged hord] at hs
      exact absurd hs.1 (lt_irrefl _)
    · rw [icmp, hord] at h
      cases h
  · exact .inl rfl

/-- A key between an internal key and its separator from `limit` does not have the user key of an
internal key from `limit` on. -/
theorem userKey_ne_of_le_separator (hc : c.Separates) (h : icmp c ik limit = .lt) {target e : Bytes}
    (hik : icmp c ik target = .lt)
    (htgt : (icmp c target ((internalKeyComparator c).findShortestSeparator ik limit)).isLE)
    (he : (icmp c limit e).isLE) : userKey e ≠ userKey target := by
  rcases findShortestSeparator_cases hc h with heq | hlt
  · rw [heq, Ordering.isLE_iff_ne_gt] at htgt
    exact absurd (Std.OrientedCmp.gt_of_lt hik) htgt
  · have hord : c.compare (userKey target) (userKey e) = .lt :=
      Std.TransCmp.lt_of_lt_of_isLE (Std.TransCmp.lt_of_isLE_of_lt (isLE_userKey htgt) hlt)
        (isLE_userKey he)
    intro heq
    have hself : c.compare (userKey target) (userKey target) = .eq := Std.ReflCmp.compare_self
    rw [heq, hself] at hord
    cases hord

/-- **Separators of internal keys.** -/
theorem Comparator.Separates.internalKeyComparator (hc : c.Separates) :
    (internalKeyComparator c).Separates where
  separator {start limit} h := by
    refine ⟨isLE_retag c _ _, ?_⟩
    rcases findShortestSeparator_cases hc h with heq | hlt
    · rw [heq]
      exact h
    · exact icmp_eq_lt_of_userKey hlt
  unchanged {start limit} h := by
    have hord : c.compare (userKey start) (userKey limit) = .eq := by
      change icmp c start limit = .eq at h
      rw [icmp] at h
      split at h
      · assumption
      · contradiction
    change retag c start _ = start
    rw [hc.unchanged hord]
    exact if_neg fun hs => lt_irrefl _ hs.1
  successor key := isLE_retag c _ _

end PulsearcDb
