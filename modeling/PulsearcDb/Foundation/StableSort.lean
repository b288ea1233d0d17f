import Mathlib.Data.List.Sort

/-!
# Stable sorting by a total preorder

`List.insertionSort` is stable, so sorting in two rounds is sorting once: a list that was sorted
before more elements were appended sorts to the same list as if it had never been sorted
(`insertionSort_insertionSort_append`), and sorting commutes with dropping elements
(`filter_insertionSort`). Both hold for total preorders, where two different elements may be
equivalent and the order of the input decides.

The last section sorts intervals: pairwise separated intervals, sorted by their lower end, lie one
behind the other (`pairwise_lt_insertionSort`).
-/

namespace PulsearcDb.StableSort

open List

section Preorder

variable {α : Type*} (r : α → α → Prop) [DecidableRel r]

/-- An element that is strictly before another one can be inserted on either side of it. -/
private theorem orderedInsert_comm [Std.Total r] [IsTrans α r] {a b : α} (hab : ¬ r a b)
    (l : List α) :
    (l.orderedInsert r a).orderedInsert r b = (l.orderedInsert r b).orderedInsert r a := by
  have hba : r b a := (Std.Total.total a b).resolve_left hab
  induction l with
  | nil => simp [List.orderedInsert, hab, hba]
  | cons x l ih =>
    by_cases hax : r a x
    · have hbx : r b x := IsTrans.trans _ _ _ hba hax
      simp [List.orderedInsert, hax, hbx, hba, hab]
    · by_cases hbx : r b x
      · simp [List.orderedInsert, hax, hbx, hab]
      · simp [List.orderedInsert, hax, hbx, ih]

private theorem foldr_orderedInsert_orderedInsert [Std.Total r] [IsTrans α r] (a : α)
    (l m : List α) :
    (l.orderedInsert r a).foldr (List.orderedInsert r) m =
      (l.foldr (List.orderedInsert r) m).orderedInsert r a := by
  induction l with
  | nil => rfl
  | cons b l ih =>
    by_cases hab : r a b
    · simp [List.orderedInsert, hab]
    · rw [List.orderedInsert, if_neg hab, foldr_cons, ih, foldr_cons, orderedInsert_comm r hab]

private theorem foldr_insertionSort [Std.Total r] [IsTrans α r] (l m : List α) :
    (l.insertionSort r).foldr (List.orderedInsert r) m = l.foldr (List.orderedInsert r) m := by
  induction l with
  | nil => rfl
  | cons a l ih =>
    rw [insertionSort_cons, foldr_orderedInsert_orderedInsert, ih, foldr_cons]

/-- Sorting a prefix first does not change the sorted list. -/
theorem insertionSort_insertionSort_append [Std.Total r] [IsTrans α r] (l m : List α) :
    (l.insertionSort r ++ m).insertionSort r = (l ++ m).insertionSort r := by
  simp only [List.insertionSort, foldr_append]
  exact foldr_insertionSort r l _

private theorem filter_orderedInsert [IsTrans α r] (p : α → Bool) (a : α) {l : List α}
    (hl : l.Pairwise r) :
    (l.orderedInsert r a).filter p =
      if p a then (l.filter p).orderedInsert r a else l.filter p := by
  induction l with
  | nil => cases hp : p a <;> simp [List.orderedInsert, hp]
  | cons b l ih =>
    obtain ⟨hb, hl⟩ := pairwise_cons.mp hl
    by_cases hab : r a b
    · have hhead : (l.filter p).orderedInsert r a = a :: l.filter p := by
        cases hf : l.filter p with
        | nil => rfl
        | cons c m =>
          have hc : c ∈ l := (mem_filter.mp (hf ▸ mem_cons_self : c ∈ l.filter p)).1
          exact orderedInsert_cons_of_le r m (IsTrans.trans _ _ _ hab (hb c hc))
      cases hpa : p a <;> cases hpb : p b <;> simp [List.orderedInsert, hab, hpa, hpb, hhead]
    · cases hpa : p a <;> cases hpb : p b <;> simp [List.orderedInsert, hab, hpa, hpb, ih hl]

/-- Sorting commutes with dropping elements. -/
theorem filter_insertionSort [Std.Total r] [IsTrans α r] (p : α → Bool) (l : List α) :
    (l.insertionSort r).filter p = (l.filter p).insertionSort r := by
  induction l with
  | nil => rfl
  | cons a l ih =>
    rw [insertionSort_cons, filter_orderedInsert r p a (pairwise_insertionSort r l), ih]
    cases hp : p a <;> simp [hp]

end Preorder

section Intervals

variable {α β : Type*} [LinearOrder β] (lo hi : α → β)

/-- Two intervals, one wholly before the other. -/
def Separated (a b : α) : Prop := hi a < lo b ∨ hi b < lo a

theorem Separated.symm {a b : α} (h : Separated lo hi a b) : Separated lo hi b a := Or.symm h

instance : Std.Symm (Separated lo hi) := ⟨fun _ _ => Separated.symm lo hi⟩

/-- Pairwise separated intervals sorted by their lower ends lie one behind the other. -/
theorem pairwise_lt_of_pairwise_le {l : List α} (hval : ∀ a ∈ l, lo a ≤ hi a)
    (hsep : l.Pairwise (Separated lo hi)) (hle : l.Pairwise fun a b => lo a ≤ lo b) :
    l.Pairwise fun a b => hi a < lo b := by
  induction l with
  | nil => exact List.Pairwise.nil
  | cons a l ih =>
    obtain ⟨hsepa, hsep⟩ := pairwise_cons.mp hsep
    obtain ⟨hlea, hle⟩ := pairwise_cons.mp hle
    refine pairwise_cons.mpr ⟨fun b hb => ?_, ih (fun b hb => hval b (.tail a hb)) hsep hle⟩
    rcases hsepa b hb with h | h
    · exact h
    · exact absurd h (not_lt.mpr ((hlea b hb).trans (hval b (.tail a hb))))

theorem pairwise_lt_insertionSort {l : List α} (r : α → α → Prop) [DecidableRel r]
    [Std.Total r] [IsTrans α r] (hr : ∀ a b, r a b → lo a ≤ lo b)
    (hval : ∀ a ∈ l, lo a ≤ hi a) (hsep : l.Pairwise (Separated lo hi)) :
    (l.insertionSort r).Pairwise fun a b => hi a < lo b := by
  have hperm := perm_insertionSort r l
  refine pairwise_lt_of_pairwise_le lo hi (fun a ha => hval a (hperm.subset ha))
    (hperm.symm.pairwise hsep fun h => h.symm) ?_
  exact (pairwise_insertionSort r l).imp (fun h => hr _ _ h)

end Intervals

end PulsearcDb.StableSort
