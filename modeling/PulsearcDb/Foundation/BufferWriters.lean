import Mathlib.Data.List.Basic

/-!
# Writers into a buffer

Computations that write into a buffer of a fixed length and have no value when they would write
behind its end. The buffer may hold anything before.

The rule `Writes before w written b` says what a writer does behind a part of the buffer that is
written already: it puts `written` there, returns `b` and leaves the rest of the buffer, and it has
no value exactly when there is no room. Writers one after the other write one thing behind the other
(`Writes.bind`), and a writer in a slice of the buffer may be looked at alone (`Fills.inSlice`,
`Writes.fromPlace`).
-/

namespace PulsearcDb

open List

variable {α β γ : Type}

/-- A computation on a buffer. -/
abbrev BufferWriter (α β : Type) := StateT (List α) Option β

namespace BufferWriter

/-- Run a writer on the slice from `start` to `stop`. -/
def inSlice (start stop : ℕ) (w : BufferWriter α β) : BufferWriter α β := fun buffer =>
  if start ≤ stop ∧ stop ≤ buffer.length then
    (w ((buffer.take stop).drop start)).map fun result =>
      (result.1, buffer.take start ++ (result.2 ++ buffer.drop stop))
  else none

/-- Run a writer on the slice from `start` to the end. -/
def fromPlace (start : ℕ) (w : BufferWriter α β) : BufferWriter α β := fun buffer =>
  inSlice start buffer.length w buffer

/-- Overwrite the buffer with as many elements. -/
def copyFromSlice (source : List α) : BufferWriter α Unit := fun buffer =>
  if buffer.length = source.length then some ((), source) else none

/-- Overwrite one element. -/
def setAt (place : ℕ) (x : α) : BufferWriter α Unit := fun buffer =>
  if place < buffer.length then some ((), buffer.set place x) else none

/-- Behind `before`, a writer writes `written` and returns `b`, if there is room. -/
def Writes (before : List α) (w : BufferWriter α β) (written : List α) (b : β) : Prop :=
  ∀ rest, w (before ++ rest) =
    if written.length ≤ rest.length then
      some (b, before ++ (written ++ rest.drop written.length))
    else none

/-- A writer that fills a slice of the right length. -/
def Fills (w : BufferWriter α β) (written : List α) (b : β) : Prop :=
  ∀ slice, slice.length = written.length → w slice = some (b, written)

variable {before written written' : List α} {w : BufferWriter α β} {b : β} {c : γ}

theorem writes_pure (before : List α) (b : β) : Writes before (pure b) [] b := by
  intro rest
  exact (if_pos (Nat.zero_le rest.length)).symm

/-- **Writers one after the other.** -/
theorem Writes.bind {f : β → BufferWriter α γ} (h : Writes before w written b)
    (hf : Writes (before ++ written) (f b) written' c) :
    Writes before (w >>= f) (written ++ written') c := by
  intro rest
  have hbind : (w >>= f) (before ++ rest) =
      (w (before ++ rest)).bind fun result => f result.1 result.2 := rfl
  rw [hbind, h rest, length_append]
  split_ifs with hfst hboth hboth
  · rw [Option.bind_some, ← append_assoc, hf, if_pos (by rw [length_drop]; omega), drop_drop]
    simp only [append_assoc]
  · rw [Option.bind_some, ← append_assoc, hf, if_neg (by rw [length_drop]; omega)]
  · omega
  · rfl

theorem writes_setAt (before : List α) (x : α) : Writes before (setAt before.length x) [x] () := by
  intro rest
  rw [setAt, length_append]
  cases rest with
  | nil => simp
  | cons y rest => simp

/-- A writer on the rest of the buffer. -/
theorem Writes.fromPlace (h : Writes [] w written b) {start : ℕ} (hstart : start = before.length) :
    Writes before (fromPlace start w) written b := by
  subst hstart
  intro rest
  have hs : ((before ++ rest).take (before ++ rest).length).drop before.length = rest := by
    rw [take_length, drop_left]
  have hrest := h rest
  rw [nil_append] at hrest
  rw [BufferWriter.fromPlace, inSlice, if_pos ⟨by simp, Nat.le_refl _⟩, hs, hrest]
  split_ifs
  · simp
  · rfl

theorem Writes.fills (h : Writes [] w written b) : Fills w written b := by
  intro slice hlen
  have hs := h slice
  rwa [nil_append, if_pos (Nat.le_of_eq hlen.symm), ← hlen, drop_length,
    append_nil, nil_append] at hs

theorem fills_copyFromSlice (source : List α) : Fills (copyFromSlice source) source () :=
  fun _ hlen => if_pos hlen

/-- A writer on a slice that it fills. -/
theorem Fills.inSlice (h : Fills w written b) {start stop : ℕ} (hstart : start = before.length)
    (hstop : stop = start + written.length) : Writes before (inSlice start stop w) written b := by
  subst hstart hstop
  intro rest
  rw [BufferWriter.inSlice, length_append]
  split_ifs with hbounds hroom hroom
  · have hs : ((before ++ rest).take (before.length + written.length)).drop before.length =
        rest.take written.length := by
      rw [take_length_add_append, drop_left]
    rw [hs, h _ (length_take_of_le hroom)]
    simp
  · omega
  · omega
  · rfl

end BufferWriter

end PulsearcDb
