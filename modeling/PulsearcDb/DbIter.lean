import PulsearcDb.MergingIter

/-!
# The snapshot iterator

`DBIter` (`db_iter/db_iter.rs`) turns an iterator over internal entries into an iterator over what a
snapshot sees: of each user key the newest entry that is not newer than the snapshot, unless it is
a tombstone. Going forward, the inner iterator is at the entry; going backward, key and value are
saved and the inner iterator is before the entries of the key.

The loops of `DBIter` end when the inner iterator does, and nothing in `DBIter` bounds them. `fuel`
is the number of rounds that a loop may take; a call that needs more is `none`.
-/

namespace PulsearcDb

open Cursor

/-- `struct DBIter`, without the read sampler and the drop hook. -/
structure DBIter (c : Comparator) (fuel : ℕ) (σ : Type) where
  iter : σ
  sequence : ℕ
  direction : Direction := .forward
  valid : Bool := false
  savedKey : Bytes := []
  savedValue : Bytes := []
  status : Result Unit := .ok ()

namespace DBIter

variable {c : Comparator} {fuel : ℕ} {σ : Type} [DbIterator σ]

/-- The iterator after a key that cannot be parsed. -/
def corrupted (it : DBIter c fuel σ) : DBIter c fuel σ :=
  { it with status := .error (.corruption "corrupted internal key in DBIter"), valid := false }

/-- The saved key and `skipping` after an entry that is passed over, or `none` for an entry that is
the answer. -/
def passOver (it : DBIter c fuel σ) (skipping : Bool) (parsed : ParsedInternalKey) :
    Option (Bytes × Bool) :=
  if parsed.sequence ≤ it.sequence then
    match parsed.valueType with
    | .deletion => some (parsed.userKey, true)
    | .value =>
      if skipping && (c.compare parsed.userKey it.savedKey).isLE then some (it.savedKey, skipping)
      else none
  else some (it.savedKey, skipping)

/-- The loop of `find_next_user_entry`. -/
def findNextLoop : ℕ → Bool → DBIter c fuel σ → Option (DBIter c fuel σ)
  | 0, _, _ => none
  | rounds + 1, skipping, it => do
    let key ← DbIterator.key it.iter
    match parseInternalKey key with
    | none => return it.corrupted
    | some parsed =>
      match it.passOver skipping parsed with
      | none => return { it with valid := true, savedKey := [] }
      | some (savedKey, skipping) =>
        let iter ← DbIterator.next it.iter
        if DbIterator.valid iter then findNextLoop rounds skipping { it with iter, savedKey }
        else return { it with iter, savedKey := [], valid := false }

/-- Forward to the next key that is not deleted. -/
def findNextUserEntry (skipping : Bool) (it : DBIter c fuel σ) : Option (DBIter c fuel σ) := do
  guard (DbIterator.valid it.iter)
  guard (it.direction = .forward)
  findNextLoop fuel skipping it

/-- The end of `find_prev_user_entry`. -/
def finishPrev (valueType : ValueType) (it : DBIter c fuel σ) : DBIter c fuel σ :=
  match valueType with
  | .deletion => { it with valid := false, savedKey := [], savedValue := [], direction := .forward }
  | .value => { it with valid := true }

/-- An entry that `find_prev_user_entry` remembers. -/
def remember (it : DBIter c fuel σ) (parsed : ParsedInternalKey) : Option (DBIter c fuel σ) :=
  match parsed.valueType with
  | .deletion => some { it with savedKey := [], savedValue := [] }
  | .value => do
    let value ← DbIterator.value it.iter
    return { it with savedKey := parsed.userKey, savedValue := value }

/-- The loop of `find_prev_user_entry`. -/
def findPrevLoop : ℕ → ValueType → DBIter c fuel σ → Option (DBIter c fuel σ)
  | 0, _, _ => none
  | rounds + 1, valueType, it => do
    let key ← DbIterator.key it.iter
    match parseInternalKey key with
    | none => return it.corrupted
    | some parsed =>
      if parsed.sequence ≤ it.sequence then
        if valueType ≠ .deletion ∧ (c.compare parsed.userKey it.savedKey).isLT then
          return finishPrev valueType it
        else
          let it ← it.remember parsed
          let iter ← DbIterator.prev it.iter
          if DbIterator.valid iter then findPrevLoop rounds parsed.valueType { it with iter }
          else return finishPrev parsed.valueType { it with iter }
      else
        let iter ← DbIterator.prev it.iter
        if DbIterator.valid iter then findPrevLoop rounds valueType { it with iter }
        else return finishPrev valueType { it with iter }

/-- Backward to the key before, with its value saved. -/
def findPrevUserEntry (it : DBIter c fuel σ) : Option (DBIter c fuel σ) := do
  guard (it.direction = .reverse)
  if DbIterator.valid it.iter then findPrevLoop fuel .deletion it
  else return finishPrev .deletion it

/-- `seek_to_first` of `DBIter`. -/
def seekToFirst (it : DBIter c fuel σ) : Option (DBIter c fuel σ) := do
  let iter ← DbIterator.seekToFirst it.iter
  let it := { it with iter, direction := .forward, savedValue := [] }
  if DbIterator.valid iter then findNextUserEntry false it else return { it with valid := false }

/-- `seek_to_last` of `DBIter`. -/
def seekToLast (it : DBIter c fuel σ) : Option (DBIter c fuel σ) := do
  let iter ← DbIterator.seekToLast it.iter
  findPrevUserEntry { it with iter, direction := .reverse, savedValue := [] }

/-- The saved key is the scratch for the internal key that is sought. -/
def seek (it : DBIter c fuel σ) (target : Bytes) : Option (DBIter c fuel σ) := do
  guard (it.sequence ≤ maxSequenceNumber)
  let savedKey := internalKey target it.sequence .value
  let iter ← DbIterator.seek it.iter savedKey
  let it := { it with iter, direction := .forward, savedValue := [], savedKey }
  if DbIterator.valid iter then findNextUserEntry false it else return { it with valid := false }

/-- The user key that the inner iterator is at. -/
def innerUserKey (iter : σ) : Option Bytes := (DbIterator.key iter).bind extractUserKey

/-- A reverse iterator first turns around. -/
def next (it : DBIter c fuel σ) : Option (DBIter c fuel σ) := do
  guard it.valid
  match it.direction with
  | .reverse =>
    let iter ←
      if DbIterator.valid it.iter then DbIterator.next it.iter else DbIterator.seekToFirst it.iter
    let it := { it with iter, direction := .forward }
    if DbIterator.valid iter then findNextUserEntry true it
    else return { it with valid := false, savedKey := [] }
  | .forward =>
    let savedKey ← innerUserKey it.iter
    findNextUserEntry true { it with savedKey }

/-- The loop of `prev`, which leaves the entries of the saved key. -/
def leaveKey : ℕ → DBIter c fuel σ → Option (DBIter c fuel σ)
  | 0, _ => none
  | rounds + 1, it => do
    let iter ← DbIterator.prev it.iter
    if DbIterator.valid iter then
      let key ← innerUserKey iter
      if (c.compare key it.savedKey).isLT then
        findPrevUserEntry { it with iter, direction := .reverse }
      else leaveKey rounds { it with iter }
    else return { it with iter, valid := false, savedKey := [], savedValue := [] }

/-- A forward iterator first turns around. -/
def prev (it : DBIter c fuel σ) : Option (DBIter c fuel σ) := do
  guard it.valid
  match it.direction with
  | .forward =>
    let savedKey ← innerUserKey it.iter
    leaveKey fuel { it with savedKey }
  | .reverse => findPrevUserEntry it

/-- In reverse the key is the saved one. -/
def key (it : DBIter c fuel σ) : Option Bytes := do
  guard it.valid
  match it.direction with
  | .forward => innerUserKey it.iter
  | .reverse => return it.savedKey

/-- In reverse the value is the saved one. -/
def value (it : DBIter c fuel σ) : Option Bytes := do
  guard it.valid
  match it.direction with
  | .forward => DbIterator.value it.iter
  | .reverse => return it.savedValue

instance : DbIterator (DBIter c fuel σ) where
  valid := valid
  seekToFirst := seekToFirst
  seekToLast := seekToLast
  seek := seek
  next := next
  prev := prev
  key := key
  value := value
  status it := it.status.bind fun _ => DbIterator.status it.iter

end DBIter

/-! ### What a snapshot sees -/

/-- An internal key as the writers make them. -/
def IsInternalKey (ik : Bytes) : Prop :=
  ∃ key s t, s ≤ maxSequenceNumber ∧ ik = internalKey key s t

theorem IsInternalKey.exists_parsed {ik : Bytes} (h : IsInternalKey ik) :
    ∃ t : ValueType, keyTag ik = keySequence ik * 256 + t.toByte ∧ keyTypeByte ik = t.toByte ∧
      parseInternalKey ik = some ⟨userKey ik, keySequence ik, t⟩ ∧
      extractUserKey ik = some (userKey ik) := by
  obtain ⟨key, s, t, hs, rfl⟩ := h
  refine ⟨t, ?_, keyTypeByte_internalKey hs key t, ?_, ?_⟩
  · rw [keyTag_internalKey hs, keySequence_internalKey hs]
  · rw [parseInternalKey_internalKey hs, userKey_internalKey, keySequence_internalKey hs]
  · rw [extractUserKey_internalKey, userKey_internalKey]

/-- The newest entry of its user key that is not newer than the snapshot, and it is a value. -/
def Live (c : Comparator) (s : ℕ) (inner : List Pair) (e : Pair) : Prop :=
  keySequence e.1 ≤ s ∧ keyTypeByte e.1 = ValueType.value.toByte ∧
    ∀ e' ∈ inner, c.compare (userKey e'.1) (userKey e.1) = .eq → keySequence e'.1 ≤ s →
      keySequence e'.1 ≤ keySequence e.1

instance (c : Comparator) (s : ℕ) (inner : List Pair) (e : Pair) :
    Decidable (Live c s inner e) := inferInstanceAs (Decidable (_ ∧ _ ∧ _))

/-- The user keys that a snapshot sees, with their values. -/
def visible (c : Comparator) (s : ℕ) (inner : List Pair) : List Pair :=
  (inner.filter fun e => Live c s inner e).map fun e => (userKey e.1, e.2)

namespace DBIter

section Order

variable (c : Comparator)

/-- The place of an internal entry. -/
noncomputable abbrev pos (e : Pair) : Rank (icmp c) := rank (icmp c) e.1

/-- The place of its user key. -/
noncomputable abbrev user (e : Pair) : Rank c.compare := rank c.compare (userKey e.1)

variable {c} {a b : Pair}

theorem pos_lt : pos c a < pos c b ↔
    user c a < user c b ∨ user c a = user c b ∧ keyTag b.1 < keyTag a.1 := by
  rw [rank_lt_rank, rank_lt_rank, rank_eq_rank, icmp]
  cases c.compare (userKey a.1) (userKey b.1) <;> simp [Nat.compare_eq_lt]

theorem user_le_of_pos_le (h : pos c a ≤ pos c b) : user c a ≤ user c b := by
  by_contra hlt
  exact absurd (pos_lt.mpr (.inl (not_le.mp hlt))) (not_lt.mpr h)

theorem pos_lt_of_user_lt (h : user c a < user c b) : pos c a < pos c b := pos_lt.mpr (.inl h)

end Order

section Seen

variable {c : Comparator} {s : ℕ} {inner : List Pair} {e : Pair}

/-- The entry is not newer than the snapshot. -/
def Seen (s : ℕ) (e : Pair) : Prop := keySequence e.1 ≤ s

/-- Among the entries of its key that the snapshot sees, a live one comes first. -/
theorem live_iff (hwf : ∀ e ∈ inner, IsInternalKey e.1) (he : e ∈ inner) :
    Live c s inner e ↔ Seen s e ∧ keyTypeByte e.1 = ValueType.value.toByte ∧
      ∀ e' ∈ inner, Seen s e' → user c e' = user c e → pos c e ≤ pos c e' := by
  refine and_congr_right fun hseen => and_congr_right fun hval => forall₂_congr fun e' he' => ?_
  obtain ⟨t, htag, hbyte, -⟩ := (hwf e he).exists_parsed
  obtain ⟨t', htag', -⟩ := (hwf e' he').exists_parsed
  have ht : t.toByte = 1 := hbyte.symm.trans hval
  have ht' : t'.toByte ≤ 1 := by cases t' <;> decide
  rw [rank_eq_rank, forall_comm]
  refine forall₂_congr fun _ heq => ?_
  have huser : user c e = user c e' := (rank_eq_rank.mpr heq).symm
  have hpos : pos c e ≤ pos c e' ↔ ¬ keyTag e.1 < keyTag e'.1 := by
    rw [← not_lt, pos_lt, huser]
    simp only [lt_self_iff_false, false_or, true_and]
  rw [hpos]
  omega

theorem pos_le_of_live (hwf : ∀ e ∈ inner, IsInternalKey e.1) (he : e ∈ inner)
    (h : Live c s inner e) {e' : Pair} (he' : e' ∈ inner) (hseen : Seen s e')
    (huser : user c e' = user c e) : pos c e ≤ pos c e' :=
  ((live_iff hwf he).mp h).2.2 e' he' hseen huser

/-- What is shown of a live entry. -/
def shown (e : Pair) : Pair := (userKey e.1, e.2)

theorem mem_visible {x : Pair} :
    x ∈ visible c s inner ↔ ∃ e ∈ inner, Live c s inner e ∧ shown e = x := by
  simp [visible, shown, and_assoc]

theorem pairwise_visible (hwf : ∀ e ∈ inner, IsInternalKey e.1)
    (hsort : Increasing (icmp c) inner) :
    Increasing c.compare (visible c s inner) := by
  refine List.pairwise_map.mpr ?_
  have hfilt := hsort.filter fun e => decide (Live c s inner e)
  refine hfilt.imp_of_mem fun {a b} ha hb hlt => ?_
  obtain ⟨ha, hlivea⟩ := List.mem_filter.mp ha
  obtain ⟨hb, hliveb⟩ := List.mem_filter.mp hb
  have hpos : pos c a < pos c b := rank_lt_rank.mpr hlt
  refine rank_lt_rank.mp (lt_of_le_of_ne (user_le_of_pos_le hpos.le) fun huser => ?_)
  have hle := pos_le_of_live hwf hb (of_decide_eq_true hliveb) ha (of_decide_eq_true hlivea).1 huser
  exact absurd hle (not_le.mpr hpos)

/-- The live entries with these user keys. -/
def liveAt (c : Comparator) (s : ℕ) (inner : List Pair) (Q : Rank c.compare → Prop) :
    Set Pair := {e | e ∈ inner ∧ Live c s inner e ∧ Q (user c e)}

theorem image_shown (Q : Rank c.compare → Prop) :
    Set.image shown (liveAt c s inner Q) =
      {x ∈ {x | x ∈ visible c s inner} | Q (rank c.compare x.1)} := by
  ext x
  constructor
  · rintro ⟨e, ⟨he, hlive, hQ⟩, rfl⟩
    exact ⟨mem_visible.mpr ⟨e, he, hlive, rfl⟩, hQ⟩
  · rintro ⟨hx, hQ⟩
    obtain ⟨e, he, hlive, rfl⟩ := mem_visible.mp hx
    exact ⟨e, ⟨he, hlive, hQ⟩, rfl⟩

/-- The first live entry of a part that is given by user keys is the first one that is shown. -/
theorem isFirst_shown {Q : Rank c.compare → Prop} {p : Option Pair}
    (h : IsFirst (pos c) (liveAt c s inner Q) p) :
    IsFirst (fun x : Pair => rank c.compare x.1)
      {x ∈ {x | x ∈ visible c s inner} | Q (rank c.compare x.1)} (p.map shown) :=
  image_shown Q ▸ h.image fun _ _ _ _ hle => user_le_of_pos_le hle

theorem isLast_shown {Q : Rank c.compare → Prop} {p : Option Pair}
    (h : IsLast (pos c) (liveAt c s inner Q) p) :
    IsLast (fun x : Pair => rank c.compare x.1)
      {x ∈ {x | x ∈ visible c s inner} | Q (rank c.compare x.1)} (p.map shown) :=
  image_shown Q ▸ h.image fun _ _ _ _ hle => user_le_of_pos_le hle

end Seen

end DBIter
end PulsearcDb
