import Mathlib.Algebra.Order.BigOperators.Group.Finset
import Mathlib.Tactic.Linarith

/-!
# Runs of a step function

A system is a step function: in a state, an action leads to the next state. What one step preserves
under a condition on the action, a run preserves when all its actions meet the condition
(`invariant`).

Where a step may fail, a function between the states of two systems that commutes with their steps
commutes with their runs (`map_foldlM`).

A loop whose body keeps an invariant and lowers a measure whenever it goes on ends with a result
(`exists_loopWithin`). Such a measure is the potential of units at the places `0, …, n - 1` of a
line, which counts for every unit the places between it and the last one: moving units to the next
place takes as much from it as units were moved, also when some get lost on the way
(`potential_add_le`).
-/

namespace PulsearcDb.Runs

variable {σ α : Type*} (step : σ → α → σ)

/-- The state after a list of actions. -/
def run (s : σ) (actions : List α) : σ := actions.foldl step s

/-- Every action of a run meets a condition in the state in which it is taken. -/
def Along (P : σ → α → Prop) : σ → List α → Prop
  | _, [] => True
  | s, a :: actions => P s a ∧ Along P (step s a) actions

instance Along.decidable (P : σ → α → Prop) [∀ s a, Decidable (P s a)] :
    ∀ s actions, Decidable (Along step P s actions)
  | _, [] => inferInstanceAs (Decidable True)
  | s, a :: actions =>
    have := Along.decidable P (step s a) actions
    inferInstanceAs (Decidable (P s a ∧ Along step P (step s a) actions))

variable {step} {P : σ → α → Prop} {s : σ} {a : α} {actions more : List α}

@[simp] theorem run_nil : run step s [] = s := rfl

@[simp] theorem run_cons : run step s (a :: actions) = run step (step s a) actions := rfl

theorem run_append : run step s (actions ++ more) = run step (run step s actions) more :=
  List.foldl_append

theorem run_concat : run step s (actions ++ [a]) = step (run step s actions) a := run_append

theorem along_concat :
    Along step P s (actions ++ [a]) ↔ Along step P s actions ∧ P (run step s actions) a := by
  induction actions generalizing s with
  | nil => simp [Along]
  | cons b actions ih => simp only [List.cons_append, Along, ih, run_cons, and_assoc]

/-- **The invariant rule.** -/
theorem invariant {I : σ → Prop} (hstep : ∀ s a, I s → P s a → I (step s a)) (h : I s)
    (halong : Along step P s actions) : I (run step s actions) := by
  induction actions generalizing s with
  | nil => exact h
  | cons a actions ih => exact ih (hstep s a h halong.1) halong.2

theorem invariant_of_step {I : σ → Prop} (hstep : ∀ s a, I s → I (step s a)) (h : I s) :
    I (run step s actions) := by
  induction actions generalizing s with
  | nil => exact h
  | cons a actions ih => exact ih (hstep s a h)

/-! ### Steps that may fail -/

section Commuting

variable {τ σ' τ' : Type*} {φ : σ → τ} {ψ : σ' → τ'}

/-- Where a function on the states commutes with the continuation, it commutes with the whole. -/
theorem map_bind_comm {f : σ → Option σ'} {g : τ → Option τ'}
    (hcomm : ∀ s, (f s).map ψ = g (φ s)) (x : Option σ) :
    (x.bind f).map ψ = (x.map φ).bind g := by
  cases x with
  | none => rfl
  | some s => exact hcomm s

theorem map_bind_congr {x : Option α} {y : α → Option σ} {z : α → Option τ}
    (h : ∀ a, (y a).map φ = z a) : (x.bind y).map φ = x.bind z := by
  cases x with
  | none => rfl
  | some a => exact h a

/-- **Commuting runs.** -/
theorem map_foldlM {f : σ → α → Option σ} {g : τ → α → Option τ}
    (hcomm : ∀ s a, (f s a).map φ = g (φ s) a) (s : σ) (actions : List α) :
    (actions.foldlM f s).map φ = actions.foldlM g (φ s) := by
  induction actions generalizing s with
  | nil => rfl
  | cons a actions ih =>
    rw [List.foldlM_cons, List.foldlM_cons, ← hcomm]
    exact map_bind_comm ih (f s a)

end Commuting

end PulsearcDb.Runs

namespace PulsearcDb

/-! ### Units that are moved on -/

open Finset

/-- The distance of all units to the last of `n` places. -/
def potential (n : ℕ) (units : ℕ → ℕ) : ℕ := ∑ i ∈ range n, (n - 1 - i) * units i

/-- **Moving units on lowers the potential.** -/
theorem potential_add_le {n i moved : ℕ} {units units' : ℕ → ℕ} (hi : i + 1 < n)
    (hfrom : units' i + moved ≤ units i) (hto : units' (i + 1) ≤ units (i + 1) + moved)
    (hrest : ∀ j < n, j ≠ i → j ≠ i + 1 → units' j ≤ units j) :
    potential n units' + moved ≤ potential n units := by
  have hmem : i ∈ range n := mem_range.mpr (by omega)
  have hmem' : i + 1 ∈ (range n).erase i := mem_erase.mpr ⟨by omega, mem_range.mpr hi⟩
  have hothers : ∑ j ∈ ((range n).erase i).erase (i + 1), (n - 1 - j) * units' j ≤
      ∑ j ∈ ((range n).erase i).erase (i + 1), (n - 1 - j) * units j := by
    refine sum_le_sum fun j hj => Nat.mul_le_mul_left _ ?_
    simp only [mem_erase, mem_range] at hj
    exact hrest j hj.2.2 hj.2.1 hj.1
  obtain ⟨w, hw, hw'⟩ : ∃ w, n - 1 - i = w + 1 ∧ n - 1 - (i + 1) = w :=
    ⟨n - 1 - (i + 1), by omega, rfl⟩
  have hpair : (w + 1) * units' i + w * units' (i + 1) + moved ≤
      (w + 1) * units i + w * units (i + 1) := by
    have hleft := Nat.mul_le_mul_left (w + 1) hfrom
    have hright := Nat.mul_le_mul_left w hto
    linarith
  rw [potential, potential, ← add_sum_erase _ _ hmem, ← add_sum_erase _ _ hmem',
    ← add_sum_erase (range n) (fun j => (n - 1 - j) * units j) hmem,
    ← add_sum_erase _ (fun j => (n - 1 - j) * units j) hmem', hw, hw']
  omega

/-! ### Loops -/

section Loops

variable {σ ρ : Type*}

/-- At most `fuel` turns of a loop from the `i`-th turn on. The body goes on with a state or ends
the loop with a result; a body without a value has failed, and so has a loop without fuel. -/
def loopWithin (body : ℕ → σ → Option (σ ⊕ ρ)) : ℕ → ℕ → σ → Option ρ
  | 0, _, _ => none
  | fuel + 1, i, s =>
    match body i s with
    | none => none
    | some (.inl s') => loopWithin body fuel (i + 1) s'
    | some (.inr r) => some r

/-- **The rule for loops with a measure.** -/
theorem exists_loopWithin {body : ℕ → σ → Option (σ ⊕ ρ)} {Inv : σ → Prop} {Post : ρ → Prop}
    (measure : σ → ℕ)
    (hbody : ∀ i s, Inv s →
      (∃ s', body i s = some (.inl s') ∧ Inv s' ∧ measure s' < measure s) ∨
        ∃ r, body i s = some (.inr r) ∧ Post r)
    {fuel : ℕ} {s : σ} (hs : Inv s) (hfuel : measure s < fuel) (i : ℕ) :
    ∃ r, loopWithin body fuel i s = some r ∧ Post r := by
  induction fuel generalizing i s with
  | zero => omega
  | succ fuel ih =>
    rw [loopWithin]
    rcases hbody i s hs with ⟨s', heq, hs', hlt⟩ | ⟨r, heq, hr⟩
    · rw [heq]
      exact ih hs' (by omega) (i + 1)
    · rw [heq]
      exact ⟨r, rfl, hr⟩

end Loops

end PulsearcDb
