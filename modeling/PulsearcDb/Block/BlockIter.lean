import PulsearcDb.Block.Block
import PulsearcDb.DbIterator

/-!
# The iterator of a block

`BlockIter` (`block/block.rs`) decodes the entries of a block one after the other into a running
key. It can only start at a restart point: `seek` searches the restart points by bisection and goes
on from the last one before the target, and `prev` starts once more from a restart point before the
current entry.

Every slice that the source takes of the block is guarded here, the unchecked one of a key too, and
an access outside the block is `none`. The loops of the source end because each round reads an entry
or moves the restart index, so a loop that takes more rounds than the block has bytes is `none` too.
-/

namespace PulsearcDb

/-! ### The running key -/

/-- `KEY_INLINE_CAP`: the length up to which a key is kept inline. -/
def keyInlineCap : ℕ := 48

/-- `enum KeyBuf`: short keys are inline, in the first bytes of an array. -/
inductive KeyBuf
  | inline (data : Bytes) (len : ℕ) (hdata : data.length = keyInlineCap) (hlen : len ≤ keyInlineCap)
  | heap (v : Bytes)

namespace KeyBuf

/-- `KeyBuf::new`: an empty inline key. -/
def new : KeyBuf := .inline (List.replicate keyInlineCap 0) 0 (by simp) (Nat.zero_le _)

/-- `KeyBuf::deref`: the bytes of the key. -/
def deref : KeyBuf → Bytes
  | .inline data len _ _ => data.take len
  | .heap v => v

/-- `KeyBuf::clear` keeps the kind of buffer. -/
def clear : KeyBuf → KeyBuf
  | .inline data _ hdata _ => .inline data 0 hdata (Nat.zero_le _)
  | .heap _ => .heap []

/-- `KeyBuf::truncate` keeps the first `n` bytes. -/
def truncate (n : ℕ) : KeyBuf → KeyBuf
  | .inline data len hdata hlen => .inline data (min n len) hdata ((min_le_right _ _).trans hlen)
  | .heap v => .heap (v.take n)

/-- `KeyBuf::extend_from_slice`: a key that becomes too long for the array moves to the heap. -/
def extendFromSlice (bytes : Bytes) : KeyBuf → KeyBuf
  | .inline data len hdata hlen =>
    if h : len + bytes.length ≤ keyInlineCap then
      .inline (data.take len ++ bytes ++ data.drop (len + bytes.length)) (len + bytes.length)
        (by simp only [List.length_append, List.length_take, List.length_drop]; omega) h
    else .heap (data.take len ++ bytes)
  | .heap v => .heap (v ++ bytes)

@[simp] theorem deref_clear (k : KeyBuf) : k.clear.deref = [] := by
  cases k <;> rfl

@[simp] theorem deref_truncate (n : ℕ) (k : KeyBuf) : (k.truncate n).deref = k.deref.take n := by
  cases k with
  | inline data len hdata hlen => exact (List.take_take).symm
  | heap v => rfl

@[simp] theorem deref_extendFromSlice (bytes : Bytes) (k : KeyBuf) :
    (k.extendFromSlice bytes).deref = k.deref ++ bytes := by
  cases k with
  | inline data len hdata hlen =>
    rw [extendFromSlice]
    split_ifs with h
    · have hlength : (data.take len ++ bytes).length = len + bytes.length := by
        rw [List.length_append, List.length_take]
        omega
      exact List.take_left' hlength
    · rfl
  | heap v => rfl

end KeyBuf

/-! ### The iterator -/

/-- `struct BlockIter`; the defaults are those of `from_source`. -/
structure BlockIter (cmp : Compare) where
  block : Block
  currentOffset : ℕ := block.restartOffset
  nextEntryOffset : ℕ := block.restartOffset
  restartIndex : ℕ := block.numRestarts
  key : KeyBuf := .new
  valueOffset : ℕ := 0
  valueLen : ℕ := 0
  valid : Bool := false
  status : Result Unit := .ok ()

namespace BlockIter

variable {cmp : Compare}

/-- `read_restart`: the offset that a restart point holds. -/
def readRestart (it : BlockIter cmp) (idx : ℕ) : Option ℕ := do
  let offset := it.block.restartOffset + idx * 4
  guard (offset + 4 ≤ it.block.bytes.length)
  return decodeFixed32 (it.block.bytes.drop offset)

/-- The iterator has left the entries. -/
def leave (it : BlockIter cmp) : BlockIter cmp :=
  { it with
    valid := false
    currentOffset := it.block.restartOffset
    nextEntryOffset := it.block.restartOffset }

/-- `set_corruption`: the iterator leaves the entries with an error. -/
def setCorruption (it : BlockIter cmp) (msg : String) : BlockIter cmp :=
  { it.leave with status := .error (.corruption ("Block: " ++ msg)) }

/-- The bytes of the entries from an offset on, `bytes[offset..restart_offset]`. -/
def entriesFrom (it : BlockIter cmp) (offset : ℕ) : Option Bytes := do
  guard (offset ≤ it.block.restartOffset ∧ it.block.restartOffset ≤ it.block.bytes.length)
  return (it.block.bytes.take it.block.restartOffset).drop offset

/-- `parse_next_entry`: decodes the entry at `next_entry_offset` behind the running key, and says
whether there is one. The bytes of the key come from a raw slice in the source; here it is guarded
as the checked ones are. -/
def parseNextEntry (it : BlockIter cmp) : Option (Bool × BlockIter cmp) :=
  if it.nextEntryOffset ≥ it.block.restartOffset then some (false, it.leave)
  else do
    let p ← it.entriesFrom it.nextEntryOffset
    match getVarint32 p with
    | (none, _) => return (false, it.setCorruption "bad shared")
    | (some shared, p₁) =>
      match getVarint32 p₁ with
      | (none, _) => return (false, it.setCorruption "bad unshared")
      | (some unshared, p₂) =>
        match getVarint32 p₂ with
        | (none, _) => return (false, it.setCorruption "bad value_len")
        | (some valueLen, p₃) =>
          if p₃.length < unshared + valueLen then
            return (false, it.setCorruption "truncated entry")
          else if shared > it.key.deref.length then
            return (false, it.setCorruption "shared > prev key len")
          else
            let keyPos := it.nextEntryOffset + (p.length - p₃.length)
            let valuePos := keyPos + unshared
            guard (keyPos + unshared ≤ it.block.bytes.length)
            let keyDelta := (it.block.bytes.drop keyPos).take unshared
            return (true, { it with
              currentOffset := it.nextEntryOffset
              key := (it.key.truncate shared).extendFromSlice keyDelta
              valueOffset := valuePos
              valueLen
              nextEntryOffset := valuePos + valueLen
              valid := true })

/-- `seek_to_restart_point`: the next entry is the one at a restart point, which has no key before
it. -/
def seekToRestartPoint (it : BlockIter cmp) (idx : ℕ) : Option (BlockIter cmp) := do
  let offset ← it.readRestart idx
  return { it with
    key := it.key.clear
    restartIndex := idx
    nextEntryOffset := offset
    currentOffset := offset
    valid := false }

/-- Reads entries until the next one is not before `limit`: the loops of `seek_to_last`
and `prev`. -/
def parseUntil (limit : ℕ) : ℕ → BlockIter cmp → Option (BlockIter cmp)
  | 0, _ => none
  | rounds + 1, it => do
    let (parsed, it) ← it.parseNextEntry
    if parsed && it.nextEntryOffset < limit then parseUntil limit rounds it else some it

/-- Reads entries until one reaches the target: the second loop of `seek`. -/
def parseTo (target : Bytes) : ℕ → BlockIter cmp → Option (BlockIter cmp)
  | 0, _ => none
  | rounds + 1, it => do
    let (parsed, it) ← it.parseNextEntry
    if parsed && !(cmp it.key.deref target).isGE then parseTo target rounds it else some it

/-- The bisection of `seek`: the last restart point before the target, or the iterator at an entry
that cannot be read. -/
def bisect (it : BlockIter cmp) (target : Bytes) : ℕ → ℕ → ℕ → Option (Except (BlockIter cmp) ℕ)
  | 0, _, _ => none
  | rounds + 1, left, right =>
    if left < right then do
      let mid := left + (right - left + 1) / 2
      let restartOffset ← it.readRestart mid
      let p ← it.entriesFrom restartOffset
      let (_, p₁) := getVarint32 p
      match getVarint32 p₁ with
      | (none, _) => return .error (it.setCorruption "bad seek unshared")
      | (some unshared, p₂) =>
        let (_, p₃) := getVarint32 p₂
        if p₃.length < unshared then return .error (it.setCorruption "truncated seek")
        else if (cmp (p₃.take unshared) target).isLT then bisect it target rounds mid right
        else bisect it target rounds left (mid - 1)
    else some (.ok left)

/-- The loop of `next`, which moves the restart index up to the current entry. -/
def advanceRestart : ℕ → BlockIter cmp → Option (BlockIter cmp)
  | 0, _ => none
  | rounds + 1, it =>
    if it.restartIndex + 1 < it.block.numRestarts then do
      let offset ← it.readRestart (it.restartIndex + 1)
      if offset ≤ it.currentOffset then
        advanceRestart rounds { it with restartIndex := it.restartIndex + 1 }
      else some it
    else some it

/-- The first loop of `prev`: the last restart point before an offset, from a restart index on. -/
def retreatRestart (it : BlockIter cmp) (original : ℕ) : ℕ → Option (Option ℕ)
  | 0 => do
    let offset ← it.readRestart 0
    return if offset ≥ original then none else some 0
  | idx + 1 => do
    let offset ← it.readRestart (idx + 1)
    if offset ≥ original then retreatRestart it original idx else return some (idx + 1)

/-- The rounds that a loop may take. -/
def rounds (it : BlockIter cmp) : ℕ := it.block.bytes.length + 1

/-- `seek_to_first`. -/
def seekToFirst (it : BlockIter cmp) : Option (BlockIter cmp) :=
  if it.block.numRestarts = 0 then some { it with valid := false }
  else do
    let it ← it.seekToRestartPoint 0
    let (_, it) ← it.parseNextEntry
    return it

/-- `seek_to_last`: from the last restart point to the end of the entries. -/
def seekToLast (it : BlockIter cmp) : Option (BlockIter cmp) :=
  if it.block.numRestarts = 0 then some { it with valid := false }
  else do
    let it ← it.seekToRestartPoint (it.block.numRestarts - 1)
    parseUntil it.block.restartOffset it.rounds it

/-- `seek`: from the restart point that the bisection finds to an entry that reaches the target. -/
def seek (it : BlockIter cmp) (target : Bytes) : Option (BlockIter cmp) :=
  if it.block.numRestarts = 0 then some { it with valid := false }
  else do
    match ← it.bisect target it.rounds 0 (it.block.numRestarts - 1) with
    | .error it => return it
    | .ok left =>
      let it ← it.seekToRestartPoint left
      parseTo target it.rounds it

/-- `next`: reads one entry and moves the restart index up to it. -/
def next (it : BlockIter cmp) : Option (BlockIter cmp) := do
  let (_, it) ← it.parseNextEntry
  advanceRestart it.rounds it

/-- `prev`: from a restart point before the current entry to the entry that ends where it starts. -/
def prev (it : BlockIter cmp) : Option (BlockIter cmp) := do
  let original := it.currentOffset
  match ← it.retreatRestart original it.restartIndex with
  | none => return { it.leave with restartIndex := 0 }
  | some idx =>
    let it ← it.seekToRestartPoint idx
    parseUntil original it.rounds it

/-- `value`: the slice of the block that holds the value. -/
def value (it : BlockIter cmp) : Option Bytes := do
  guard (it.valueOffset + it.valueLen ≤ it.block.bytes.length)
  return (it.block.bytes.drop it.valueOffset).take it.valueLen

instance : DbIterator (BlockIter cmp) where
  valid := valid
  seekToFirst := seekToFirst
  seekToLast := seekToLast
  seek := seek
  next := next
  prev := prev
  key it := some it.key.deref
  value := value
  status := status

end BlockIter

end PulsearcDb
