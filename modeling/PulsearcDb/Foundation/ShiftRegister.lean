import Mathlib.Data.BitVec

/-!
# Shift registers with feedback

A register is shifted to the right one place at a time, and a fixed vector is added where a one
falls out. The step is linear in exclusive or (`step_xor`), and it is a plain shift as long as only
zeros fall out (`iterate_step_of_low`). So the first `n` steps are those of the lowest `n` bits
beside a shift of the others (`iterate_step_split`).

Message bits are added to the lowest place before each step (`feed`). Adding all of them before the
first step is the same (`foldl_feed`).
-/

namespace PulsearcDb.ShiftRegister

variable {w : ℕ} (poly : BitVec w)

/-- One step of the register. -/
def step (x : BitVec w) : BitVec w :=
  if x.getLsbD 0 then (x >>> 1) ^^^ poly else x >>> 1

/-- A step with a message bit. -/
def feed (x : BitVec w) (bit : Bool) : BitVec w := step poly (x ^^^ BitVec.setWidth w (.ofBool bit))

/-- The lowest `n` bits of a register. -/
def low (n : ℕ) (x : BitVec w) : BitVec w := (x.setWidth n).setWidth w

variable {poly} {x y : BitVec w} {n m : ℕ}

/-! ### Linearity -/

theorem step_xor (x y : BitVec w) : step poly (x ^^^ y) = step poly x ^^^ step poly y := by
  simp only [step, BitVec.getLsbD_xor, BitVec.ushiftRight_xor_distrib]
  cases x.getLsbD 0 <;> cases y.getLsbD 0
  · rfl
  · exact BitVec.xor_assoc _ _ _
  · simp only [Bool.xor_false, if_true, Bool.false_eq_true, if_false]
    ac_rfl
  · simp only [Bool.xor_self, if_true, Bool.false_eq_true, if_false]
    rw [BitVec.xor_assoc, BitVec.xor_comm (y >>> 1), ← BitVec.xor_assoc poly, BitVec.xor_self,
      BitVec.zero_xor]

theorem iterate_step_xor (n : ℕ) (x y : BitVec w) :
    (step poly)^[n] (x ^^^ y) = (step poly)^[n] x ^^^ (step poly)^[n] y := by
  induction n generalizing x y with
  | zero => rfl
  | succ n ih => rw [Function.iterate_succ_apply, step_xor, ih]; rfl

/-! ### The lowest bits -/

theorem getLsbD_low (n : ℕ) (x : BitVec w) (i : ℕ) :
    (low n x).getLsbD i = (decide (i < n) && x.getLsbD i) := by
  rw [low, BitVec.getLsbD_setWidth, BitVec.getLsbD_setWidth]
  by_cases hi : i < w
  · simp [hi]
  · rw [BitVec.getLsbD_of_ge x i (not_lt.mp hi)]
    simp [hi]

/-- While only zeros fall out, the register is shifted. -/
theorem iterate_step_of_low (h : ∀ i < n, x.getLsbD i = false) : (step poly)^[n] x = x >>> n := by
  induction n with
  | zero => simp
  | succ n ih =>
    have hbit : (x >>> n).getLsbD 0 = false := by
      rw [BitVec.getLsbD_ushiftRight]
      exact h n (Nat.lt_succ_self n)
    rw [Function.iterate_succ_apply', ih fun i hi => h i (Nat.lt_succ_of_lt hi), step, hbit,
      ← BitVec.shiftRight_add]
    rfl

/-- **The first steps** are those of the lowest bits, and the other bits are shifted. -/
theorem iterate_step_split (n : ℕ) (x : BitVec w) :
    (step poly)^[n] x = (step poly)^[n] (low n x) ^^^ (x >>> n) := by
  have hclear : ∀ i < n, (low n x ^^^ x).getLsbD i = false := by
    intro i hi
    rw [BitVec.getLsbD_xor, getLsbD_low, decide_eq_true hi, Bool.true_and, Bool.xor_self]
  have hshift : (low n x ^^^ x) >>> n = x >>> n := by
    refine BitVec.eq_of_getLsbD_eq fun i _ => ?_
    rw [BitVec.getLsbD_ushiftRight, BitVec.getLsbD_xor, getLsbD_low, BitVec.getLsbD_ushiftRight,
      decide_eq_false (by omega), Bool.false_and, Bool.false_xor]
  calc (step poly)^[n] x
      = (step poly)^[n] (low n x ^^^ (low n x ^^^ x)) := by
        rw [← BitVec.xor_assoc, BitVec.xor_self, BitVec.zero_xor]
    _ = (step poly)^[n] (low n x) ^^^ (x >>> n) := by
        rw [iterate_step_xor, iterate_step_of_low hclear, hshift]

/-- What is put `n` places up arrives in the lowest places after `n` steps. -/
theorem iterate_step_shiftLeft (h : ∀ i, w ≤ i + n → x.getLsbD i = false) :
    (step poly)^[n] (x <<< n) = x := by
  rw [iterate_step_of_low fun i hi => by simp [hi]]
  refine BitVec.eq_of_getLsbD_eq fun i hi => ?_
  rw [BitVec.getLsbD_ushiftRight, BitVec.getLsbD_shiftLeft]
  by_cases hlt : n + i < w
  · simp [hlt]
  · rw [h i (by omega)]
    simp [hlt]

/-! ### Messages -/

variable {v : ℕ}

/-- **Bits that are fed one by one** may be added before the first step. -/
theorem foldl_feed (message : BitVec v) (hn : n ≤ w) (x : BitVec w) :
    (List.range n).foldl (fun x i => feed poly x (message.getLsbD i)) x =
      (step poly)^[n] (x ^^^ (message.setWidth n).setWidth w) := by
  induction n with
  | zero =>
    have hzero : (message.setWidth 0).setWidth w = 0#w := by
      rw [BitVec.of_length_zero (x := message.setWidth 0)]
      simp
    rw [hzero, BitVec.xor_zero]
    rfl
  | succ n ih =>
    -- the next bit, as it would be in place before the first step
    have hplace : (step poly)^[n] (BitVec.setWidth w (.ofBool (message.getLsbD n)) <<< n) =
        BitVec.setWidth w (.ofBool (message.getLsbD n)) := by
      refine iterate_step_shiftLeft fun i hi => ?_
      rw [BitVec.getLsbD_setWidth, BitVec.getLsbD_ofBool]
      simp
      omega
    have hbits : (message.setWidth (n + 1)).setWidth w =
        (message.setWidth n).setWidth w ^^^
          BitVec.setWidth w (.ofBool (message.getLsbD n)) <<< n := by
      refine BitVec.eq_of_getLsbD_eq fun i hi => ?_
      simp only [BitVec.getLsbD_xor, BitVec.getLsbD_shiftLeft, BitVec.getLsbD_setWidth,
        BitVec.getLsbD_ofBool]
      rcases lt_trichotomy i n with hlt | rfl | hgt
      · simp [hi, hlt, Nat.lt_succ_of_lt hlt]
      · simp [hi, Nat.zero_lt_of_lt hi]
      · simp [hgt.not_gt, show ¬ i < n + 1 by omega]
        omega
    rw [List.range_succ, List.foldl_append, List.foldl_cons, List.foldl_nil, ih (by omega), feed,
      Function.iterate_succ_apply', hbits, ← BitVec.xor_assoc, iterate_step_xor n (x ^^^ _), hplace]

end PulsearcDb.ShiftRegister
