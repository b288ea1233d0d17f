import Mathlib.Data.List.Pairwise
import Mathlib.Order.Basic

/-!
# Binary search for a partition point

A list is partitioned by a predicate when the elements that satisfy it come first. Binary search
finds the number of these elements, `take_partitionPoint` and `drop_partitionPoint`.
-/

namespace PulsearcDb.PartitionPoint

open List

variable {α : Type*} (p : α → Bool) (l : List α)

/-- The search between two positions. -/
def partitionLoop (left right : ℕ) (h : right ≤ l.length) : ℕ :=
  if _hlt : left < right then
    let mid := left + (right - left) / 2
    if p (l.get ⟨mid, by omega⟩) then partitionLoop (mid + 1) right h
    else partitionLoop left mid (by omega)
  else left
termination_by right - left
decreasing_by all_goals omega

/-- `slice::partition_point`. -/
def partitionPoint : ℕ := partitionLoop p l 0 l.length (Nat.le_refl _)

variable {p l}

section

variable (hmono : l.Pairwise fun a b => p b = true → p a = true)
include hmono

/-- The loop keeps that the positions below it satisfy the predicate and those above do not. -/
private theorem partitionLoop_spec {left right : ℕ} (h : right ≤ l.length) (hle : left ≤ right)
    (hb : ∀ i (hi : i < l.length), i < left → p (l.get ⟨i, hi⟩) = true)
    (habove : ∀ i (hi : i < l.length), right ≤ i → p (l.get ⟨i, hi⟩) = false) :
    (∀ i (hi : i < l.length), i < partitionLoop p l left right h → p (l.get ⟨i, hi⟩) = true) ∧
      ∀ i (hi : i < l.length), partitionLoop p l left right h ≤ i → p (l.get ⟨i, hi⟩) = false := by
  have hget := pairwise_iff_get.mp hmono
  fun_induction partitionLoop p l left right h with
  | case1 left right h hlt mid hp ih =>
    refine ih (by omega) (fun i hi hil => ?_) habove
    rcases Nat.lt_or_ge i mid with him | him
    · exact hget ⟨i, hi⟩ ⟨mid, by omega⟩ him hp
    · obtain rfl : i = mid := by omega
      exact hp
  | case2 left right h hlt mid hp ih =>
    refine ih (by omega) hb fun i hi hil => ?_
    rcases Nat.lt_or_ge mid i with him | him
    · exact Bool.eq_false_iff.mpr fun hpi => hp (hget ⟨mid, by omega⟩ ⟨i, hi⟩ him hpi)
    · obtain rfl : i = mid := by omega
      exact Bool.eq_false_iff.mpr hp
  | case3 left right h hlt =>
    exact ⟨hb, fun i hi hil => habove i hi (by omega)⟩

private theorem partitionPoint_spec :
    (∀ i (hi : i < l.length), i < partitionPoint p l → p (l.get ⟨i, hi⟩) = true) ∧
      ∀ i (hi : i < l.length), partitionPoint p l ≤ i → p (l.get ⟨i, hi⟩) = false :=
  partitionLoop_spec hmono (Nat.le_refl _) (Nat.zero_le _)
    (fun i _ h => absurd h (Nat.not_lt_zero i))
    fun i hi h => absurd hi (by omega)

/-- The elements before the partition point satisfy the predicate. -/
theorem take_partitionPoint : ∀ a ∈ l.take (partitionPoint p l), p a = true := by
  intro a ha
  obtain ⟨i, hi, rfl⟩ := mem_iff_getElem.mp ha
  rw [length_take] at hi
  rw [getElem_take]
  exact (partitionPoint_spec hmono).1 i (by omega) (by omega)

/-- Those from the partition point on do not. -/
theorem drop_partitionPoint : ∀ a ∈ l.drop (partitionPoint p l), p a = false := by
  intro a ha
  obtain ⟨i, hi, rfl⟩ := mem_iff_getElem.mp ha
  rw [length_drop] at hi
  rw [getElem_drop]
  exact (partitionPoint_spec hmono).2 (partitionPoint p l + i) (by omega) (by omega)

/-- The partition point is the first position that does not satisfy the predicate. -/
theorem findIdx?_not :
    l.findIdx? (fun a => !p a) =
      if partitionPoint p l < l.length then some (partitionPoint p l) else none := by
  obtain ⟨hb, habove⟩ := partitionPoint_spec hmono
  split_ifs with hlt
  · refine findIdx?_eq_some_iff_getElem.mpr ⟨hlt, ?_, fun i hi => ?_⟩
    · rw [Bool.not_eq_true']
      exact habove _ hlt (Nat.le_refl _)
    · rw [Bool.not_eq_true', Bool.not_eq_false]
      exact hb i (Nat.lt_trans hi hlt) hi
  · refine findIdx?_eq_none_iff.mpr fun a ha => ?_
    obtain ⟨i, hi, rfl⟩ := mem_iff_getElem.mp ha
    rw [Bool.not_eq_false']
    exact hb i hi (by omega)

end

end PulsearcDb.PartitionPoint
