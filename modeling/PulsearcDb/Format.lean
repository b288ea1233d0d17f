import PulsearcDb.Coding
import Mathlib.Data.Prod.Lex

/-!
# Comparators and internal keys

User keys are compared by a `Comparator` (`comparator/comparator.rs`), documented to be a total
order; the structure carries what every use relies on, that `compare` is transitive and oriented.
An internal key (`format/dbformat.rs`) is a user key followed by the eight bytes of its tag, the
sequence number shifted left by eight bits with the value type in the low byte. The internal key
comparator orders by user key and then by *decreasing* tag.

For the bytewise comparator the internal keys are ordered as the pairs `ikOrd` of the lexicographic
product of the byte strings with the dual of the natural numbers (`icmp_bytewise_eq_lt`). The
orders of the LSM tree are stated with `ikOrd`.

## Main definitions

* `Comparator`, `bytewiseComparator`.
* `userKey`, `keyTag`, `keySequence`, `keyTypeByte`, `icmp`.
* `lookupKey` : the internal key that a read at a sequence number seeks.
-/

namespace PulsearcDb

/-! ### Constants -/

/-- The levels are 0 to 6. -/
def numLevels : ℕ := 7

/-- Level-0 files that start a compaction. -/
def l0CompactionTrigger : ℕ := 4

/-- Level-0 files that stop the writers. -/
def l0StopWritesTrigger : ℕ := 12

/-- The deepest level for a flushed memtable. -/
def maxMemCompactLevel : ℕ := 2

/-- Sequence numbers have 56 bits. -/
def maxSequenceNumber : ℕ := 2 ^ 56 - 1

/-! ### User key comparators -/

/-- `trait Comparator`, with the documented constraint on `compare` as a field. -/
structure Comparator where
  name : String
  compare : Bytes → Bytes → Ordering
  findShortestSeparator : Bytes → Bytes → Bytes
  findShortSuccessor : Bytes → Bytes
  transCmp : Std.TransCmp compare

instance (c : Comparator) : Std.TransCmp c.compare := c.transCmp

/-- The number of leading bytes on which two strings agree. -/
def diffIndex : Bytes → Bytes → ℕ
  | a :: l, b :: m => if a = b then diffIndex l m + 1 else 0
  | _, _ => 0

namespace BytewiseComparator

/-- `a.cmp(b)` on byte slices. -/
def compare (a b : Bytes) : Ordering := compareOfLessAndEq a b

/-- A short string from `start` to before `limit`. -/
def findShortestSeparator (start limit : Bytes) : Bytes :=
  let d := diffIndex start limit
  if d < min start.length limit.length then
    let diffByte := start.getD d 0
    if diffByte < 0xff ∧ diffByte + 1 < limit.getD d 0 then start.take d ++ [diffByte + 1]
    else start
  else start

/-- A short string that is not smaller. -/
def findShortSuccessor : Bytes → Bytes
  | [] => []
  | b :: l => if b ≠ 0xff then [b + 1] else b :: findShortSuccessor l

variable {a b : Bytes}

theorem compare_eq_lt : compare a b = .lt ↔ a < b := compareOfLessAndEq_eq_lt

theorem compare_eq_gt : compare a b = .gt ↔ b < a :=
  compareOfLessAndEq_eq_gt le_antisymm le_total not_le a b

theorem compare_eq_eq : compare a b = .eq ↔ a = b := compareOfLessAndEq_eq_eq le_refl not_le

theorem isLE_compare : (compare a b).isLE = true ↔ a ≤ b := by
  rw [Ordering.isLE_iff_ne_gt, compare_eq_gt, not_lt]

theorem isGE_compare : (compare a b).isGE = true ↔ b ≤ a := by
  rw [Ordering.isGE_iff_ne_lt, compare_eq_lt, not_lt]

instance : Std.TransCmp compare where
  eq_swap {a b} := by
    rcases lt_trichotomy a b with h | h | h
    · rw [compare_eq_lt.mpr h, compare_eq_gt.mpr h]; rfl
    · rw [compare_eq_eq.mpr h, compare_eq_eq.mpr h.symm]; rfl
    · rw [compare_eq_gt.mpr h, compare_eq_lt.mpr h]; rfl
  isLE_trans {a b c} h h' := by
    rw [isLE_compare] at *
    exact h.trans h'

end BytewiseComparator

/-- `struct BytewiseComparator`, the default order of user keys. -/
def bytewiseComparator : Comparator where
  name := "pulsearc-db.BytewiseComparator"
  compare := BytewiseComparator.compare
  findShortestSeparator := BytewiseComparator.findShortestSeparator
  findShortSuccessor := BytewiseComparator.findShortSuccessor
  transCmp := inferInstance

variable {a b : Bytes}

theorem bytewise_isLE : (bytewiseComparator.compare a b).isLE = true ↔ a ≤ b :=
  BytewiseComparator.isLE_compare

@[simp] theorem bytewise_eq_lt : bytewiseComparator.compare a b = .lt ↔ a < b :=
  BytewiseComparator.compare_eq_lt

@[simp] theorem bytewise_eq_gt : bytewiseComparator.compare a b = .gt ↔ b < a :=
  BytewiseComparator.compare_eq_gt

@[simp] theorem bytewise_eq_eq : bytewiseComparator.compare a b = .eq ↔ a = b :=
  BytewiseComparator.compare_eq_eq

/-! ### Internal keys -/

/-- `enum ValueType`. -/
inductive ValueType
  | deletion
  | value
  deriving DecidableEq, Repr

/-- The byte of a value type. -/
def ValueType.toByte : ValueType → ℕ
  | .deletion => 0
  | .value => 1

/-- The tag of an internal key. -/
def packSequenceAndType (sequence : ℕ) (valueType : ValueType) : ℕ :=
  sequence <<< 8 ||| valueType.toByte

/-- `InternalKey::new`: the user key followed by its tag. -/
def internalKey (key : Bytes) (sequence : ℕ) (valueType : ValueType) : Bytes :=
  key ++ putFixed64 (packSequenceAndType sequence valueType)

/-- `required_user_key`, the slice `[..len - 8]` that the callers take. On keys under eight bytes
the source panics, and here the user key is empty. -/
def userKey (ik : Bytes) : Bytes := ik.take (ik.length - 8)

/-- The trailing eight bytes as an integer. -/
def keyTag (ik : Bytes) : ℕ := decodeFixed64 (ik.drop (ik.length - 8))

/-- The sequence number in the tag. -/
def keySequence (ik : Bytes) : ℕ := keyTag ik >>> 8

/-- The type byte in the tag. -/
def keyTypeByte (ik : Bytes) : ℕ := keyTag ik &&& 0xff

/-- `extract_user_key`. -/
def extractUserKey (ik : Bytes) : Option Bytes := if ik.length < 8 then none else some (userKey ik)

/-- `value_type_from_tag`. -/
def valueTypeFromTag : ℕ → Option ValueType
  | 0 => some .deletion
  | 1 => some .value
  | _ => none

/-- `struct ParsedInternalKey`. -/
structure ParsedInternalKey where
  userKey : Bytes
  sequence : ℕ
  valueType : ValueType

/-- `parse_internal_key`. -/
def parseInternalKey (ik : Bytes) : Option ParsedInternalKey :=
  if ik.length < 8 then none
  else (valueTypeFromTag (keyTypeByte ik)).map fun valueType =>
    { userKey := userKey ik, sequence := keySequence ik, valueType }

/-- `InternalKeyComparator::compare`, which panics on keys under eight bytes; here it is total. -/
def icmp (c : Comparator) (a b : Bytes) : Ordering :=
  match c.compare (userKey a) (userKey b) with
  | .eq => compare (keyTag b) (keyTag a)
  | order => order

/-- `LookupKey::new(user_key, sequence).internal_key()`. -/
def lookupKey (key : Bytes) (sequence : ℕ) : Bytes := internalKey key sequence .value

theorem packSequenceAndType_eq (s : ℕ) (t : ValueType) :
    packSequenceAndType s t = s * 256 + t.toByte := by
  have ht : t.toByte < 2 ^ 8 := by cases t <;> decide
  rw [packSequenceAndType, ← Nat.shiftLeft_add_eq_or_of_lt ht, Nat.shiftLeft_eq]

theorem userKey_append_putFixed64 (key : Bytes) (tag : ℕ) :
    userKey (key ++ putFixed64 tag) = key := by
  simp [userKey]

@[simp] theorem userKey_internalKey (key : Bytes) (s : ℕ) (t : ValueType) :
    userKey (internalKey key s t) = key :=
  userKey_append_putFixed64 key _

theorem keyTag_internalKey {s : ℕ} (hs : s ≤ maxSequenceNumber) (key : Bytes) (t : ValueType) :
    keyTag (internalKey key s t) = s * 256 + t.toByte := by
  have ht : t.toByte < 256 := by cases t <;> decide
  have hs' : s ≤ 2 ^ 56 - 1 := hs
  have hdrop : (internalKey key s t).drop ((internalKey key s t).length - 8) =
      putFixed64 (packSequenceAndType s t) := by
    simp [internalKey]
  rw [keyTag, hdrop, packSequenceAndType_eq, decodeFixed64_putFixed64 (by omega)]

theorem keySequence_internalKey {s : ℕ} (hs : s ≤ maxSequenceNumber) (key : Bytes) (t : ValueType) :
    keySequence (internalKey key s t) = s := by
  have ht : t.toByte < 256 := by cases t <;> decide
  rw [keySequence, keyTag_internalKey hs, Nat.shiftRight_eq_div_pow]
  omega

theorem keyTypeByte_eq (ik : Bytes) : keyTypeByte ik = keyTag ik % 256 :=
  Nat.and_two_pow_sub_one_eq_mod _ 8

theorem keySequence_eq (ik : Bytes) : keySequence ik = keyTag ik / 256 :=
  Nat.shiftRight_eq_div_pow _ 8

theorem keySequence_lt (ik : Bytes) : keySequence ik < 2 ^ 56 := by
  have htag : keyTag ik < 2 ^ 64 := by
    refine (leValue_lt _).trans_le ?_
    calc 256 ^ ((ik.drop (ik.length - 8)).take 8).length ≤ 256 ^ 8 :=
          Nat.pow_le_pow_right (by decide) (List.length_take_le _ _)
      _ = 2 ^ 64 := by decide
  rw [keySequence_eq]
  omega

theorem keyTypeByte_internalKey {s : ℕ} (hs : s ≤ maxSequenceNumber) (key : Bytes) (t : ValueType) :
    keyTypeByte (internalKey key s t) = t.toByte := by
  have ht : t.toByte < 256 := by cases t <;> decide
  rw [keyTypeByte_eq, keyTag_internalKey hs]
  omega

theorem length_internalKey (key : Bytes) (s : ℕ) (t : ValueType) :
    (internalKey key s t).length = key.length + 8 := by
  simp [internalKey]

theorem extractUserKey_internalKey (key : Bytes) (s : ℕ) (t : ValueType) :
    extractUserKey (internalKey key s t) = some key := by
  rw [extractUserKey, length_internalKey, if_neg (by omega), userKey_internalKey]

theorem parseInternalKey_internalKey {s : ℕ} (hs : s ≤ maxSequenceNumber) (key : Bytes)
    (t : ValueType) : parseInternalKey (internalKey key s t) = some ⟨key, s, t⟩ := by
  rw [parseInternalKey, length_internalKey, if_neg (by omega), keyTypeByte_internalKey hs,
    keySequence_internalKey hs, userKey_internalKey]
  cases t <;> rfl

private theorem icmp_eq_compareLex (c : Comparator) :
    icmp c = compareLex (fun a b => c.compare (userKey a) (userKey b))
      (fun a b => compare (keyTag b) (keyTag a)) := by
  funext a b
  simp only [icmp, compareLex]
  cases c.compare (userKey a) (userKey b) <;> rfl

instance (c : Comparator) : Std.TransCmp (icmp c) := by
  have huser : Std.TransCmp fun a b => c.compare (userKey a) (userKey b) :=
    { eq_swap := Std.OrientedCmp.eq_swap
      isLE_trans := Std.TransCmp.isLE_trans }
  have htag : Std.TransCmp fun a b => compare (keyTag b) (keyTag a) :=
    { eq_swap := Std.OrientedCmp.eq_swap
      isLE_trans := fun h h' => Std.TransCmp.isLE_trans h' h }
  rw [icmp_eq_compareLex]
  infer_instance

/-- Internal keys of one user key are ordered by decreasing tag. -/
theorem icmp_of_userKey_eq {c : Comparator} (h : userKey a = userKey b) :
    icmp c a b = compare (keyTag b) (keyTag a) := by
  have hself : c.compare (userKey b) (userKey b) = .eq := Std.ReflCmp.compare_self
  rw [icmp, h, hself]

theorem isLE_userKey {c : Comparator} (h : (icmp c a b).isLE) :
    (c.compare (userKey a) (userKey b)).isLE := by
  rw [icmp] at h
  split at h
  · rename_i heq
    rw [heq]
    rfl
  · exact h

/-! ### The order of internal keys under the bytewise comparator -/

/-- The place of an internal key: by user key, then newest first. -/
def ikOrd (ik : Bytes) : Bytes ×ₗ ℕᵒᵈ := toLex (userKey ik, OrderDual.toDual (keyTag ik))

theorem ikOrd_lt :
    ikOrd a < ikOrd b ↔ userKey a < userKey b ∨ userKey a = userKey b ∧ keyTag b < keyTag a := by
  rw [ikOrd, ikOrd, Prod.Lex.toLex_lt_toLex]
  rfl

theorem icmp_bytewise_eq_lt : icmp bytewiseComparator a b = .lt ↔ ikOrd a < ikOrd b := by
  rw [ikOrd_lt]
  rcases lt_trichotomy (userKey a) (userKey b) with h | h | h
  · simp [icmp, bytewise_eq_lt.mpr h, h]
  · rw [icmp, bytewise_eq_eq.mpr h]
    simp [h, Nat.compare_eq_lt]
  · simp [icmp, bytewise_eq_gt.mpr h, h.not_gt, h.ne']

theorem icmp_bytewise_eq_gt : icmp bytewiseComparator a b = .gt ↔ ikOrd b < ikOrd a := by
  rw [Std.OrientedCmp.gt_iff_lt, icmp_bytewise_eq_lt]

theorem isLE_icmp_bytewise : (icmp bytewiseComparator a b).isLE = true ↔ ikOrd a ≤ ikOrd b := by
  rw [Ordering.isLE_iff_ne_gt, icmp_bytewise_eq_gt, not_lt]

theorem userKey_le_of_ikOrd_le (h : ikOrd a ≤ ikOrd b) : userKey a ≤ userKey b := by
  rcases h.eq_or_lt with h | h
  · exact (congrArg (fun p => (ofLex p).1) h).le
  · rcases ikOrd_lt.mp h with h | h
    · exact h.le
    · exact h.1.le

theorem ikOrd_lt_of_userKey_lt (h : userKey a < userKey b) : ikOrd a < ikOrd b :=
  ikOrd_lt.mpr (Or.inl h)

end PulsearcDb
