import PulsearcDb.Coding

/-!
# The cursor convention of the decoders

The decoders of `coding/coding.rs` work on a cursor `&mut &[u8]`. The convention of the module
(`coding/mod.rs`) is that a decoder that fails leaves the cursor untouched, and one that succeeds
moves it past the bytes of what it has read.

What the bytes of an item are is said without the decoders (`CursorDecoder.IsItem`). The convention
is broken by one of them: `get_length_prefixed_slice` reads the length through its own cursor and
does not go back when the payload turns out to be too short.
-/

namespace PulsearcDb

/-- What a decoder reads. -/
inductive CursorItem
  | byte (b : UInt8)
  | number (n : ℕ)
  | slice (s : Bytes)
  deriving DecidableEq

/-- The cursor decoders of the coding module. -/
inductive CursorDecoder
  | getU8
  | getFixed16
  | getFixed32
  | getFixed64
  | getVarint32
  | getVarint64
  | getLengthPrefixedSlice
  deriving DecidableEq

namespace CursorDecoder

/-- The result of a decoder and the cursor it leaves. -/
def run : CursorDecoder → Bytes → Option CursorItem × Bytes
  | getU8, input => Prod.map (Option.map .byte) id (PulsearcDb.getU8 input)
  | getFixed16, input => Prod.map (Option.map .number) id (PulsearcDb.getFixed16 input)
  | getFixed32, input => Prod.map (Option.map .number) id (PulsearcDb.getFixed32 input)
  | getFixed64, input => Prod.map (Option.map .number) id (PulsearcDb.getFixed64 input)
  | getVarint32, input => Prod.map (Option.map .number) id (PulsearcDb.getVarint32 input)
  | getVarint64, input => Prod.map (Option.map .number) id (PulsearcDb.getVarint64 input)
  | getLengthPrefixedSlice, input =>
    Prod.map (Option.map .slice) id (PulsearcDb.getLengthPrefixedSlice input)

/-- The bytes of a fixed width number. -/
def IsFixed (width n : ℕ) (bytes : Bytes) : Prop := bytes.length = width ∧ leValue bytes = n

/-- The bytes of a string behind its length. -/
def IsSlice (s bytes : Bytes) : Prop :=
  ∃ length, IsVarint 32 5 s.length length ∧ bytes = length ++ s

/-- The bytes of an item in the format of a decoder. -/
def IsItem : CursorDecoder → CursorItem → Bytes → Prop
  | getU8, .byte b, bytes => bytes = [b]
  | getFixed16, .number n, bytes => IsFixed 2 n bytes
  | getFixed32, .number n, bytes => IsFixed 4 n bytes
  | getFixed64, .number n, bytes => IsFixed 8 n bytes
  | getVarint32, .number n, bytes => IsVarint 32 5 n bytes
  | getVarint64, .number n, bytes => IsVarint 64 10 n bytes
  | getLengthPrefixedSlice, .slice s, bytes => IsSlice s bytes
  | _, _, _ => False

/-- **The cursor convention**: a decoder that fails leaves the cursor, and one that succeeds moves
it by the bytes of its item. -/
def Keeps {α : Type} (IsItem : α → Bytes → Prop) (input : Bytes) : Option α × Bytes → Prop
  | (none, rest) => rest = input
  | (some item, rest) => ∃ bytes, input = bytes ++ rest ∧ IsItem item bytes

/-- The decoder goes by the convention on this input. -/
def KeepsCursor (d : CursorDecoder) (input : Bytes) : Prop := Keeps d.IsItem input (d.run input)

/-- The input has a length, but not as many bytes behind it. -/
def MissesPayload (input : Bytes) : Prop :=
  ∃ length rest n, input = length ++ rest ∧ IsVarint 32 5 n length ∧ rest.length < n

theorem Keeps.map {α β : Type} {P : α → Bytes → Prop} {Q : β → Bytes → Prop} {input : Bytes}
    {r : Option α × Bytes} (h : Keeps P input r) {f : α → β}
    (hf : ∀ a bytes, P a bytes → Q (f a) bytes) : Keeps Q input (Prod.map (Option.map f) id r) := by
  rcases r with ⟨_ | a, rest⟩
  · exact h
  · obtain ⟨bytes, hinput, hbytes⟩ := h
    exact ⟨bytes, hinput, hf a bytes hbytes⟩

theorem keeps_getU8 (input : Bytes) :
    Keeps (fun b bytes => bytes = [b]) input (PulsearcDb.getU8 input) := by
  cases input with
  | nil => rfl
  | cons b rest => exact ⟨[b], rfl, rfl⟩

theorem keeps_getFixed (width : ℕ) (input : Bytes) :
    Keeps (IsFixed width) input (getFixed width input) := by
  rw [getFixed]
  split_ifs with hs
  · rfl
  · refine ⟨input.take width, (List.take_append_drop width input).symm, ?_, rfl⟩
    exact List.length_take_of_le (not_lt.mp hs)

theorem keeps_getVarint (width steps : ℕ) (input : Bytes) :
    Keeps (IsVarint width steps) input (getVarint width steps input) := by
  rcases h : getVarint width steps input with ⟨_ | n, rest⟩
  · exact eq_of_getVarint_eq_none h
  · exact getVarint_eq_some_iff.mp h

/-- A payload that is missing is found out behind the length. -/
theorem getLengthPrefixedSlice_of_missesPayload {input : Bytes} (h : MissesPayload input) :
    ∃ rest, PulsearcDb.getLengthPrefixedSlice input = (none, rest) ∧ rest ≠ input := by
  obtain ⟨length, rest, n, rfl, hvar, hs⟩ := h
  have hlen : PulsearcDb.getVarint32 (length ++ rest) = (some n, rest) :=
    getVarint_eq_some_iff.mpr ⟨length, rfl, hvar⟩
  have hnone : PulsearcDb.getLengthPrefixedSlice (length ++ rest) = (none, rest) := by
    simp only [PulsearcDb.getLengthPrefixedSlice, hlen, if_pos hs]
  refine ⟨rest, hnone, fun h => ?_⟩
  rw [List.self_eq_append_left] at h
  exact not_isGroups_nil (h ▸ hvar.groups)

theorem keeps_getLengthPrefixedSlice {input : Bytes} (h : ¬ MissesPayload input) :
    Keeps IsSlice input (PulsearcDb.getLengthPrefixedSlice input) := by
  rcases hlen : PulsearcDb.getVarint32 input with ⟨_ | n, rest⟩ <;>
    simp only [PulsearcDb.getLengthPrefixedSlice, hlen]
  · exact eq_of_getVarint_eq_none hlen
  · obtain ⟨length, rfl, hvar⟩ := getVarint_eq_some_iff.mp hlen
    have hlong : ¬ rest.length < n := fun hs => h ⟨length, rest, n, rfl, hvar, hs⟩
    rw [if_neg hlong]
    refine ⟨length ++ rest.take n, ?_, length, ?_, rfl⟩
    · rw [List.append_assoc, List.take_append_drop]
    · rwa [List.length_take_of_le (not_lt.mp hlong)]

/-- Every other decoder goes by the convention. -/
theorem keepsCursor_of_ne {d : CursorDecoder} (h : d ≠ getLengthPrefixedSlice) (input : Bytes) :
    d.KeepsCursor input := by
  cases d with
  | getU8 => exact (keeps_getU8 input).map fun _ _ h => h
  | getFixed16 => exact (keeps_getFixed 2 input).map fun _ _ h => h
  | getFixed32 => exact (keeps_getFixed 4 input).map fun _ _ h => h
  | getFixed64 => exact (keeps_getFixed 8 input).map fun _ _ h => h
  | getVarint32 => exact (keeps_getVarint 32 5 input).map fun _ _ h => h
  | getVarint64 => exact (keeps_getVarint 64 10 input).map fun _ _ h => h
  | getLengthPrefixedSlice => exact absurd rfl h

/-- **The convention holds but for a payload that is missing.** -/
theorem keepsCursor_iff (d : CursorDecoder) (input : Bytes) :
    d.KeepsCursor input ↔ ¬ (d = getLengthPrefixedSlice ∧ MissesPayload input) := by
  constructor
  · rintro hkeeps ⟨rfl, hmisses⟩
    obtain ⟨rest, hslice, hne⟩ := getLengthPrefixedSlice_of_missesPayload hmisses
    rw [KeepsCursor, run, hslice] at hkeeps
    exact hne hkeeps
  · intro h
    by_cases hd : d = getLengthPrefixedSlice
    · subst hd
      exact (keeps_getLengthPrefixedSlice fun hmisses => h ⟨rfl, hmisses⟩).map fun _ _ h => h
    · exact keepsCursor_of_ne hd input

/-- A length of five with one byte behind it: the length is gone from the cursor. -/
theorem not_keepsCursor_missing : ¬ getLengthPrefixedSlice.KeepsCursor [5, 1] := by
  have hrun : getLengthPrefixedSlice.run [5, 1] = (none, [1]) := by decide
  rw [KeepsCursor, hrun, Keeps]
  decide

end CursorDecoder
end PulsearcDb
