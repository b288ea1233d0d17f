import PulsearcDb.Foundation.Recency
import PulsearcDb.MemTable
import Mathlib.Data.List.Pairwise

/-!
# Entries as versions of keys

Memtables and tables are sorted runs of entries. Under the bytewise comparator the runs are sorted
by `ikOrd`, and the first entry that is not before the lookup key of a read is the newest entry of
its key that the read may see, if it has that key at all (`answers_seek`). `MemTable.get` is such a
search.
-/

namespace PulsearcDb

open Recency

namespace Entry

/-- The user key of an entry. -/
def key (e : Entry) : Bytes := userKey e.ik

/-- The sequence number of an entry. -/
def sequence (e : Entry) : ℕ := keySequence e.ik

/-- The value of an entry that is not a tombstone. -/
def live (e : Entry) : Option Bytes :=
  if keyTypeByte e.ik = ValueType.deletion.toByte then none else some e.value

/-- The entry has an internal key as the writers make them. -/
def Valid (e : Entry) : Prop :=
  ∃ key s t, s ≤ maxSequenceNumber ∧ e.ik = internalKey key s t

variable {e e' : Entry} {k : Bytes} {s : ℕ}

theorem Valid.keyTag_eq (h : e.Valid) :
    ∃ t : ValueType, keyTag e.ik = e.sequence * 256 + t.toByte := by
  obtain ⟨key, s, t, hs, he⟩ := h
  exact ⟨t, by rw [sequence, he, keyTag_internalKey hs, keySequence_internalKey hs]⟩

theorem sequence_le_of_ikOrd_le (hkey : e.key = e'.key) (h : ikOrd e.ik ≤ ikOrd e'.ik) :
    e'.sequence ≤ e.sequence := by
  have htag : keyTag e'.ik ≤ keyTag e.ik := by
    by_contra hlt
    exact absurd (ikOrd_lt.mpr (.inr ⟨hkey.symm, not_le.mp hlt⟩)) (not_lt.mpr h)
  rw [sequence, sequence, keySequence_eq, keySequence_eq]
  exact Nat.div_le_div_right htag

/-- A read sees the entries of its key that are not before its lookup key. -/
theorem Valid.lookupKey_le_iff (h : e.Valid) (hs : s ≤ maxSequenceNumber) (hkey : e.key = k) :
    ikOrd (lookupKey k s) ≤ ikOrd e.ik ↔ e.sequence ≤ s := by
  obtain ⟨t, ht⟩ := h.keyTag_eq
  have hbyte : t.toByte ≤ 1 := by cases t <;> decide
  have hkey' : userKey e.ik = userKey (lookupKey k s) := by
    rw [lookupKey, userKey_internalKey]
    exact hkey
  have hval : ValueType.value.toByte = 1 := rfl
  rw [← not_lt, ikOrd_lt, hkey', lookupKey, keyTag_internalKey hs, ht, hval]
  simp only [lt_self_iff_false, true_and, false_or]
  omega

/-- The place of an internal key determines its user key and its sequence number. -/
theorem eq_of_ikOrd_eq (h : ikOrd e.ik = ikOrd e'.ik) :
    e.key = e'.key ∧ e.sequence = e'.sequence := by
  have htag : keyTag e.ik = keyTag e'.ik := congrArg (fun p => OrderDual.ofDual (ofLex p).2) h
  refine ⟨congrArg (fun p => (ofLex p).1) h, ?_⟩
  rw [sequence, sequence, keySequence, keySequence, htag]

/-- A sorted run in which no key has two entries with one sequence number is strictly sorted. -/
theorem pairwise_lt {entries : List Entry}
    (hle : entries.Pairwise fun a b => ikOrd a.ik ≤ ikOrd b.ik)
    (hne : entries.Pairwise fun a b => a.key = b.key → a.sequence ≠ b.sequence) :
    entries.Pairwise fun a b => ikOrd a.ik < ikOrd b.ik := by
  refine hle.imp₂ (fun a b hle hne => lt_of_le_of_ne hle fun heq => ?_) hne
  exact hne (eq_of_ikOrd_eq heq).1 (eq_of_ikOrd_eq heq).2

theorem eq_of_pairwise_lt {entries : List Entry}
    (hsort : entries.Pairwise fun a b => ikOrd a.ik < ikOrd b.ik) (he : e ∈ entries)
    (he' : e' ∈ entries) (h : ikOrd e.ik = ikOrd e'.ik) : e = e' := by
  by_contra hne
  have : Std.Symm fun a b : Entry => ikOrd a.ik ≠ ikOrd b.ik := ⟨fun _ _ h => h.symm⟩
  exact (hsort.imp fun hlt => hlt.ne).forall he he' hne h

theorem key_le_of_lookupKey_le (h : ikOrd (lookupKey k s) ≤ ikOrd e.ik) : k ≤ e.key := by
  have := userKey_le_of_ikOrd_le h
  rwa [lookupKey, userKey_internalKey] at this

end Entry

/-- The entries of a list, as a store. -/
def storeOf (entries : List Entry) : Set Entry := {e | e ∈ entries}

section Lookup

variable {c : Comparator} {e e' : Entry} {k : Bytes} {s : ℕ}

/-- Entries of one key are sorted newest first. -/
theorem Entry.sequence_le_of_isLE_icmp (hkey : e.key = e'.key) (h : (icmp c e.ik e'.ik).isLE) :
    e'.sequence ≤ e.sequence := by
  rw [icmp_of_userKey_eq hkey] at h
  have htag : keyTag e'.ik ≤ keyTag e.ik := by
    rwa [Nat.isLE_compare] at h
  rw [sequence, sequence, keySequence_eq, keySequence_eq]
  exact Nat.div_le_div_right htag

/-- A read sees the entries of its key that are not before its lookup key. -/
theorem Entry.Valid.icmp_lookupKey_ne_lt_iff (h : e.Valid) (hs : s ≤ maxSequenceNumber)
    (hkey : e.key = k) : icmp c e.ik (lookupKey k s) ≠ .lt ↔ e.sequence ≤ s := by
  obtain ⟨t, ht⟩ := h.keyTag_eq
  have hbyte : t.toByte ≤ 1 := by cases t <;> decide
  have hkey : userKey e.ik = userKey (lookupKey k s) := by
    rw [lookupKey, userKey_internalKey]
    exact hkey
  have hval : ValueType.value.toByte = 1 := rfl
  rw [icmp_of_userKey_eq hkey, lookupKey, keyTag_internalKey hs, ht, hval]
  simp only [ne_eq, Nat.compare_eq_lt]
  omega

/-- An entry of a key that is not before the lookup key is not of a smaller key. -/
theorem Entry.isLE_key_of_icmp_lookupKey (h : icmp c e.ik (lookupKey k s) ≠ .lt) :
    (c.compare k e.key).isLE := by
  rw [icmp, lookupKey, userKey_internalKey] at h
  have hswap : c.compare k e.key = (c.compare (userKey e.ik) k).swap := Std.OrientedCmp.eq_swap
  rw [hswap]
  rcases hord : c.compare (userKey e.ik) k with _ | _ | _
  · rw [hord] at h
    exact absurd rfl h
  · rfl
  · rfl

/-- **Searching a sorted run**, under any order of user keys that tells them apart. -/
theorem answers_find [Std.LawfulEqCmp c.compare] {entries : List Entry}
    (hsort : entries.Pairwise fun a b => (icmp c a.ik b.ik).isLE)
    (hv : ∀ e ∈ entries, e.Valid) (hs : s ≤ maxSequenceNumber) :
    Answers Entry.key Entry.sequence (storeOf entries) k s
      ((entries.find? fun e => icmp c e.ik (lookupKey k s) != .lt).filter fun e => e.key = k) := by
  induction entries with
  | nil => exact fun e he => by cases he
  | cons a entries ih =>
    obtain ⟨hfst, hsort⟩ := List.pairwise_cons.mp hsort
    obtain ⟨ha, hv⟩ := List.forall_mem_cons.mp hv
    by_cases hr : icmp c a.ik (lookupKey k s) = .lt
    · have hhidden : Hidden Entry.key Entry.sequence {a} k s := by
        rintro e rfl hk hvis
        exact (ha.icmp_lookupKey_ne_lt_iff hs hk).mpr hvis hr
      have hstore : storeOf (a :: entries) = {a} ∪ storeOf entries := by
        ext e
        simp [storeOf]
      rw [hstore, List.find?_cons_of_neg (by simp [hr])]
      exact (ih hsort hv).union_hidden hhidden
    · rw [List.find?_cons_of_pos (by simpa using hr)]
      by_cases hkey : a.key = k
      · rw [Option.filter_some_pos (by simpa using hkey)]
        refine ⟨List.mem_cons_self, hkey, (ha.icmp_lookupKey_ne_lt_iff hs hkey).mp hr, ?_⟩
        rintro e (_ | ⟨_, he⟩) hk -
        · exact le_rfl
        · exact Entry.sequence_le_of_isLE_icmp (hkey.trans hk.symm) (hfst e he)
      · rw [Option.filter_some_neg (by simpa using hkey)]
        -- All entries are of larger keys.
        have hlt : c.compare k a.key = .lt := by
          have hle := Entry.isLE_key_of_icmp_lookupKey hr
          rcases hord : c.compare k a.key with _ | _ | _
          · rfl
          · exact absurd (Std.LawfulEqCmp.eq_of_compare hord).symm hkey
          · rw [hord] at hle
            cases hle
        rintro e (_ | ⟨_, he⟩) hk
        · exact absurd hk hkey
        · have hlast := Std.TransCmp.lt_of_lt_of_isLE hlt (isLE_userKey (hfst e he))
          rw [← hk] at hlast
          exact absurd (Std.ReflCmp.compare_self.symm.trans hlast) (by decide)

end Lookup

/-- The first entry not before the lookup key, if it has the key. -/
def seekKey (entries : List Entry) (k : Bytes) (s : ℕ) : Option Entry :=
  (entries.find? fun e => decide (ikOrd (lookupKey k s) ≤ ikOrd e.ik)).filter fun e => e.key = k

/-- The search in terms of the places of the keys. -/
theorem find?_filter_eq_seekKey (entries : List Entry) (k : Bytes) (s : ℕ) :
    (entries.find? fun e => icmp bytewiseComparator e.ik (lookupKey k s) != .lt).filter
      (fun e => e.key = k) = seekKey entries k s := by
  have hpred : (fun e : Entry => icmp bytewiseComparator e.ik (lookupKey k s) != .lt) =
      fun e => decide (ikOrd (lookupKey k s) ≤ ikOrd e.ik) := by
    funext e
    rw [Bool.eq_iff_iff, decide_eq_true_iff, bne_iff_ne, ← not_lt, ← icmp_bytewise_eq_lt]
  rw [hpred, seekKey]

instance instLawfulEqCmpBytewise : Std.LawfulEqCmp bytewiseComparator.compare where
  eq_of_compare := bytewise_eq_eq.mp

/-- **Searching a sorted run.** -/
theorem answers_seek {entries : List Entry} {k : Bytes} {s : ℕ}
    (hsort : entries.Pairwise fun a b => ikOrd a.ik ≤ ikOrd b.ik)
    (hv : ∀ e ∈ entries, e.Valid) (hs : s ≤ maxSequenceNumber) :
    Answers Entry.key Entry.sequence (storeOf entries) k s (seekKey entries k s) := by
  rw [← find?_filter_eq_seekKey]
  exact answers_find (hsort.imp fun hle => isLE_icmp_bytewise.mpr hle) hv hs

/-! ### Memtables -/

namespace MemTable

/-- How a reader takes the answer of a memtable: a value, or that the key is deleted. -/
def found : Result Bytes → Result (Option Bytes)
  | .ok value => .ok (some value)
  | .error e => if e.isNotFound then .ok none else .error e

/-- What a memtable says about an entry. -/
def answer (e : Entry) : Result Bytes :=
  if keyTypeByte e.ik = ValueType.deletion.toByte then
    .error (Status.notFound "memtable tombstone")
  else .ok e.value

/-- **A lookup in a memtable** answers with the newest visible entry. -/
theorem get_answers {c : Comparator} [Std.LawfulEqCmp c.compare] (m : MemTable c)
    (hv : ∀ e ∈ m.entries, e.Valid) {s : ℕ} (hs : s ≤ maxSequenceNumber) (k : Bytes) :
    ∃ o, Answers Entry.key Entry.sequence (storeOf m.entries) k s o ∧ m.get k s = o.map answer := by
  refine ⟨_, answers_find m.sorted hv hs, ?_⟩
  rw [get, seek]
  rcases m.entries.find? _ with _ | e
  · rfl
  · by_cases hkey : e.key = k
    · have heq : c.compare (userKey e.ik) k = .eq := Std.LawfulEqCmp.compare_eq_iff_eq.mpr hkey
      rw [Option.filter_some_pos (by simpa using hkey)]
      simp only [heq, bne_self_eq_false, Bool.false_eq_true, if_false, Option.map_some, answer]
      split_ifs <;> rfl
    · have hne : (c.compare (userKey e.ik) k != .eq) = true := by
        rw [bne_iff_ne, Ne, Std.LawfulEqCmp.compare_eq_iff_eq]
        exact hkey
      rw [Option.filter_some_neg (by simpa using hkey)]
      simp only [hne, if_true, Option.map_none]

/-- The answer as a reader takes it. -/
theorem get_spec (m : MemTable bytewiseComparator) (hv : ∀ e ∈ m.entries, e.Valid) {s : ℕ}
    (hs : s ≤ maxSequenceNumber) (k : Bytes) :
    ∃ o, Answers Entry.key Entry.sequence (storeOf m.entries) k s o ∧
      (m.get k s).map found = o.map fun e => .ok e.live := by
  obtain ⟨o, hans, hget⟩ := m.get_answers hv hs k
  refine ⟨o, hans, ?_⟩
  have hfound : found ∘ answer = fun e => .ok e.live := by
    funext e
    simp only [Function.comp_apply, answer, Entry.live]
    split_ifs <;> rfl
  rw [hget, Option.map_map, hfound]

end MemTable
end PulsearcDb
