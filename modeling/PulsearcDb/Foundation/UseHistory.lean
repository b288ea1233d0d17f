import Mathlib.Data.List.Basic

/-!
# Histories of a cache

What happens to the keys of a cache is a list of events, the newest first: a key is inserted with a
value, it is hit, or it is removed for some cause. A history says which value a key has, if any
(`live`), and when it was last used (`lastUse`, counted from the oldest event).
-/

namespace PulsearcDb.UseHistory

open List

variable {κ ν γ : Type*}

/-- An insertion, a hit, or a removal with its cause. -/
inductive Event (κ ν γ : Type*)
  | insert (key : κ) (value : ν)
  | hit (key : κ)
  | remove (cause : γ) (key : κ)

variable [DecidableEq κ]

/-- The value that a key has after a history. -/
def live : List (Event κ ν γ) → κ → Option ν
  | [], _ => none
  | .insert key value :: older, k => if key = k then some value else live older k
  | .hit _ :: older, k => live older k
  | .remove _ key :: older, k => if key = k then none else live older k

/-- The cause for which a key is without a value, if it was removed last. -/
def removal : List (Event κ ν γ) → κ → Option γ
  | [], _ => none
  | .insert key _ :: older, k => if key = k then none else removal older k
  | .hit _ :: older, k => removal older k
  | .remove cause key :: older, k => if key = k then some cause else removal older k

/-- The number of events up to the latest insertion or hit of a key. -/
def lastUse : List (Event κ ν γ) → κ → ℕ
  | [], _ => 0
  | .insert key _ :: older, k => if key = k then older.length + 1 else lastUse older k
  | .hit key :: older, k => if key = k then older.length + 1 else lastUse older k
  | .remove _ _ :: older, k => lastUse older k

/-- Whenever a key was removed for this cause, it had a value, and no other key with a value had
been used less recently. -/
def RemovesOldest (cause : γ) (history : List (Event κ ν γ)) : Prop :=
  ∀ key older, .remove cause key :: older <:+ history →
    live older key ≠ none ∧ ∀ k, live older k ≠ none → lastUse older key ≤ lastUse older k

variable {history : List (Event κ ν γ)} {k : κ} {v : ν} {cause : γ}

theorem lastUse_le_length (history : List (Event κ ν γ)) (k : κ) :
    lastUse history k ≤ history.length := by
  induction history with
  | nil => exact Nat.le_refl 0
  | cons event older ih =>
    cases event <;> simp only [lastUse, length_cons] <;> (try split_ifs) <;> omega

/-- **A key with a value** has it from its latest insertion, and was not removed since. -/
theorem exists_of_live_eq_some (h : live history k = some v) :
    ∃ later older, history = later ++ .insert k v :: older ∧
      ∀ event ∈ later, (∀ v', event ≠ .insert k v') ∧ ∀ cause, event ≠ .remove cause k := by
  induction history with
  | nil => cases h
  | cons event older ih =>
    have hskip : live older k = some v →
        (∀ v', event ≠ .insert k v') ∧ (∀ cause, event ≠ .remove cause k) →
        ∃ later older', event :: older = later ++ .insert k v :: older' ∧
          ∀ event ∈ later, (∀ v', event ≠ .insert k v') ∧ ∀ cause, event ≠ .remove cause k := by
      intro hlive hevent
      obtain ⟨later, older', rfl, hlater⟩ := ih hlive
      exact ⟨event :: later, older', rfl, forall_mem_cons.mpr ⟨hevent, hlater⟩⟩
    cases event with
    | insert key value =>
      rw [live] at h
      split_ifs at h with hkey
      · subst hkey
        obtain rfl := Option.some.inj h
        exact ⟨[], older, rfl, fun _ hmem => absurd hmem not_mem_nil⟩
      · refine hskip h ⟨fun v' heq => hkey ?_, fun cause heq => (by cases heq)⟩
        exact (Event.insert.inj heq).1
    | hit key => exact hskip h ⟨fun v' heq => (by cases heq), fun cause heq => (by cases heq)⟩
    | remove cause key =>
      rw [live] at h
      split_ifs at h with hkey
      refine hskip h ⟨fun v' heq => (by cases heq), fun cause' heq => hkey ?_⟩
      exact (Event.remove.inj heq).2

/-- **A key without a value** was removed since each of its insertions. -/
theorem exists_remove_of_live_eq_none {later older : List (Event κ ν γ)}
    (h : live (later ++ .insert k v :: older) k = none) :
    ∃ cause, removal (later ++ .insert k v :: older) k = some cause ∧ .remove cause k ∈ later := by
  induction later with
  | nil => simp [live] at h
  | cons event later ih =>
    cases event with
    | insert key value =>
      rw [cons_append, live] at h
      rw [cons_append, removal]
      split_ifs at h with hkey
      obtain ⟨cause, hr, hmem⟩ := ih h
      exact ⟨cause, (if_neg hkey).trans hr, mem_cons_of_mem _ hmem⟩
    | hit key =>
      obtain ⟨cause, hr, hmem⟩ := ih h
      exact ⟨cause, hr, mem_cons_of_mem _ hmem⟩
    | remove cause key =>
      rw [cons_append, live] at h
      rw [cons_append, removal]
      by_cases hkey : key = k
      · subst hkey
        exact ⟨cause, if_pos rfl, mem_cons_self⟩
      · rw [if_neg hkey] at h
        obtain ⟨cause', hr, hmem⟩ := ih h
        exact ⟨cause', (if_neg hkey).trans hr, mem_cons_of_mem _ hmem⟩

/-! ### Several removals -/

/-- Keys are removed for one cause. -/
def removeAll (cause : γ) (keys : List κ) (history : List (Event κ ν γ)) : List (Event κ ν γ) :=
  keys.map (.remove cause) ++ history

theorem live_removeAll (cause : γ) (keys : List κ) (history : List (Event κ ν γ)) (k : κ) :
    live (removeAll cause keys history) k = if k ∈ keys then none else live history k := by
  induction keys with
  | nil => rfl
  | cons key keys ih =>
    rw [removeAll, map_cons, cons_append, live, ← removeAll, ih]
    by_cases hkey : key = k
    · simp [hkey]
    · simp [hkey, Ne.symm hkey]

theorem lastUse_removeAll (cause : γ) (keys : List κ) (history : List (Event κ ν γ)) (k : κ) :
    lastUse (removeAll cause keys history) k = lastUse history k := by
  induction keys with
  | nil => rfl
  | cons key keys ih => exact ih

theorem removal_removeAll {cause : γ} {keys : List κ} {cause' : γ}
    (h : removal (removeAll cause keys history) k = some cause') :
    cause' = cause ∨ removal history k = some cause' := by
  induction keys with
  | nil => exact .inr h
  | cons key keys ih =>
    rw [removeAll, map_cons, cons_append, removal, ← removeAll] at h
    split_ifs at h
    · exact .inl (Option.some.inj h).symm
    · exact ih h

/-! ### Removing the oldest -/

theorem removesOldest_cons_of_ne {event : Event κ ν γ} (h : RemovesOldest cause history)
    (hne : ∀ key, event ≠ .remove cause key) : RemovesOldest cause (event :: history) := by
  intro key older hsuf
  rcases suffix_cons_iff.mp hsuf with heq | hsuf
  · exact absurd (head_eq_of_cons_eq heq).symm (hne key)
  · exact h key older hsuf

theorem removesOldest_cons (h : RemovesOldest cause history) (hlive : live history k ≠ none)
    (holdest : ∀ k', live history k' ≠ none → lastUse history k ≤ lastUse history k') :
    RemovesOldest cause (.remove cause k :: history) := by
  intro key older hsuf
  rcases suffix_cons_iff.mp hsuf with heq | hsuf
  · obtain ⟨hevent, rfl⟩ := List.cons.inj heq
    obtain ⟨-, rfl⟩ := Event.remove.inj hevent
    exact ⟨hlive, holdest⟩
  · exact h key older hsuf

theorem removesOldest_removeAll {cause' : γ} (h : RemovesOldest cause history)
    (hne : cause' ≠ cause) (keys : List κ) :
    RemovesOldest cause (removeAll cause' keys history) := by
  induction keys with
  | nil => exact h
  | cons key keys ih =>
    exact removesOldest_cons_of_ne ih fun key' heq => hne (Event.remove.inj heq).1

theorem removesOldest_nil (cause : γ) : RemovesOldest cause ([] : List (Event κ ν γ)) := by
  intro key older hsuf
  cases suffix_nil.mp hsuf

end PulsearcDb.UseHistory
