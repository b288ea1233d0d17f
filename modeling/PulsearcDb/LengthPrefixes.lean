import PulsearcDb.PackedMemTable
import PulsearcDb.Foundation.BufferWriters

/-!
# The codecs of lengths

Lengths are varints, and there are several pieces of code for them. The coding module
(`coding/coding.rs`) appends to a vector or writes into a buffer, and reads through a cursor; the
memtable (`memtable/memtable.rs`) fills a buffer of a size that it computes before, and has two
decoders of its own that go over the places of an entry, one with checks and one without.

Here the writers into a buffer and the decoders over places are written out as in the source, and
compared with those that append and those that read through a cursor: `Addition.writes_fill`,
`PackedMemTable.add_eq_fill`, `Indexed.getMemtableLengthPrefixedSlice_eq`.
-/

namespace PulsearcDb

open BufferWriter List

/-! ### Writing into a buffer -/

/-- The loop of `encode_varint64`. -/
def encodeVarintLoop (offset value : ℕ) : BufferWriter UInt8 ℕ :=
  if 0x80 ≤ value then do
    setAt offset (UInt8.ofNat (value &&& 0x7f) ||| 0x80)
    encodeVarintLoop (offset + 1) (value >>> 7)
  else do
    setAt offset (UInt8.ofNat value)
    return offset + 1
termination_by value
decreasing_by
  simp only [Nat.shiftRight_eq_div_pow]
  omega

/-- Write a varint at the front of a buffer. -/
def encodeVarint64 (value : ℕ) : BufferWriter UInt8 ℕ := encodeVarintLoop 0 value

/-- `encode_varint32` calls `encode_varint64`. -/
def encodeVarint32 (value : ℕ) : BufferWriter UInt8 ℕ := encodeVarint64 value

/-- Write eight bytes at the front of a buffer. -/
def encodeFixed64 (value : ℕ) : BufferWriter UInt8 Unit :=
  inSlice 0 8 (copyFromSlice (leBytes 8 value))

namespace Addition

/-- The size of the buffer that `add` asks for, which it returns. -/
def encodedSize (a : Addition) : ℕ :=
  let internalKeySize := a.key.length + 8
  varintLength internalKeySize + internalKeySize + varintLength a.value.length + a.value.length

/-- The closure in `add` that fills the buffer, with its last offset. -/
def fill (a : Addition) : BufferWriter UInt8 ℕ := do
  let internalKeySize := a.key.length + 8
  let valSize := a.value.length
  let tag := a.sequence <<< 8 % 2 ^ 64 ||| a.valueType.toByte
  let offset ← fromPlace 0 (encodeVarint32 (internalKeySize % 2 ^ 32))
  inSlice offset (offset + a.key.length) (copyFromSlice a.key)
  let offset := offset + a.key.length
  inSlice offset (offset + 8) (encodeFixed64 tag)
  let offset := offset + 8
  let written ← fromPlace offset (encodeVarint32 (valSize % 2 ^ 32))
  let offset := offset + written
  inSlice offset (offset + valSize) (copyFromSlice a.value)
  return offset + valSize

end Addition

/-! ### Decoding by places -/

namespace Indexed

/-- The bytes from `start` to `stop`. There are none behind the end. -/
def slice (data : Bytes) (start stop : ℕ) : Option Bytes :=
  if stop ≤ data.length then some ((data.take stop).drop start) else none

/-- The loop over the places `1..5` of `get_memtable_length_prefixed_slice`, with the places that
are left. -/
def prefixLoop (data : Bytes) : ℕ → ℕ → ℕ → Option (Bytes × ℕ)
  | 0, _, _ => none
  | places + 1, index, result => do
    let byte ← data[index]?
    if byte &&& 0x80 ≠ 0 then
      prefixLoop data places (index + 1)
        (result ||| ((byte &&& 0x7f).toNat <<< (7 * index)) % 2 ^ 32)
    else
      let result := result ||| (byte.toNat <<< (7 * index)) % 2 ^ 32
      let start := index + 1
      let stop := start + result
      return (← slice data start stop, stop)

/-- The slice and the place behind it, with checks. -/
def getMemtableLengthPrefixedSlice (data : Bytes) : Option (Bytes × ℕ) := do
  let first ← data[0]?
  if first < 0x80 then
    let stop := 1 + first.toNat
    return (← slice data 1 stop, stop)
  else prefixLoop data 4 1 (first &&& 0x7f).toNat

/-- The loop of `memtable_internal_key_unchecked`. It has at most nine rounds, since a tenth one
would shift by the width of the word or more. -/
def uncheckedLoop (entry : Bytes) : ℕ → ℕ → ℕ → ℕ → Option (ℕ × ℕ)
  | 0, _, _, _ => none
  | rounds + 1, len, shift, idx => do
    let byte ← entry[idx]?
    if byte &&& 0x80 = 0 then return (len ||| (byte.toNat <<< shift) % 2 ^ 64, idx + 1)
    else
      uncheckedLoop entry rounds (len ||| ((byte &&& 0x7f).toNat <<< shift) % 2 ^ 64) (shift + 7)
        (idx + 1)

/-- There is no value when a byte outside of the entry is read. -/
def memtableInternalKeyUnchecked (entry : Bytes) : Option Bytes := do
  let first ← entry[0]?
  if first < 0x80 then slice entry 1 (1 + first.toNat)
  else
    let (len, idx) ← uncheckedLoop entry 9 (first &&& 0x7f).toNat 7 1
    slice entry idx (idx + len)

end Indexed

/-! ### What is written -/

/-- The length of a varint, from the loop that computes it alone. -/
theorem length_putVarint64 (value : ℕ) : (putVarint64 value).length = varintLength value :=
  length_varintBytes value

theorem varintLength_mono {m n : ℕ} (h : m ≤ n) : varintLength m ≤ varintLength n := by
  induction n using Nat.strong_induction_on generalizing m with
  | _ n ih =>
    rw [varintLength, varintLength.eq_def n]
    split_ifs with hm hn hn
    · exact Nat.le_refl 1
    · exact Nat.le_add_left 1 _
    · omega
    · exact Nat.succ_le_succ (ih (n / 128) (by omega) (Nat.div_le_div_right h))

theorem writes_encodeVarintLoop (before : Bytes) (value : ℕ) :
    Writes before (encodeVarintLoop before.length value) (varintBytes value)
      (before.length + varintLength value) := by
  induction value using Nat.strong_induction_on generalizing before with
  | _ value ih =>
    rw [encodeVarintLoop, varintBytes, varintLength]
    by_cases hbig : 0x80 ≤ value
    · have hnext := ih (value / 128) (by omega) (before ++ [UInt8.ofNat (value &&& 0x7f) ||| 0x80])
      rw [length_append, length_singleton, Nat.add_assoc, Nat.add_comm 1] at hnext
      rw [if_pos hbig, if_pos hbig, if_neg (by omega), Nat.shiftRight_eq_div_pow]
      exact (writes_setAt before _).bind hnext
    · rw [if_neg hbig, if_neg hbig, if_pos (by omega)]
      exact (writes_setAt before _).bind (writes_pure _ _)

/-- A varint that is written into a buffer is the one that is appended to a vector. -/
theorem writes_encodeVarint64 (value : ℕ) :
    Writes [] (encodeVarint64 value) (putVarint64 value) (varintLength value) := by
  have hwrites := writes_encodeVarintLoop [] value
  rwa [length_nil, Nat.zero_add] at hwrites

theorem fills_encodeFixed64 (value : ℕ) : Fills (encodeFixed64 value) (putFixed64 value) () := by
  have hfills := fills_copyFromSlice (leBytes 8 value)
  exact (hfills.inSlice (by rfl) (by simp)).fills

namespace Addition

/-- The bits of a sequence number that the shift drops are not in the tag either. -/
theorem putFixed64_tag (s : ℕ) (t : ValueType) :
    putFixed64 (s <<< 8 % 2 ^ 64 ||| t.toByte) = putFixed64 (packSequenceAndType s t) := by
  have ht : t.toByte % 2 ^ 64 = t.toByte := by cases t <;> rfl
  have hmod : s <<< 8 % 2 ^ 64 ||| t.toByte = packSequenceAndType s t % 256 ^ 8 := by
    rw [show 256 ^ 8 = 2 ^ 64 from rfl, packSequenceAndType, Nat.or_mod_two_pow, ht]
  rw [hmod, putFixed64, leBytes_mod, putFixed64]

theorem length_pack_entry (a : Addition) : a.entry.pack.length =
    varintLength ((a.key.length + 8) % 2 ^ 32) + a.key.length + 8 +
      varintLength (a.value.length % 2 ^ 32) + a.value.length := by
  simp only [← packedEntry_eq, PackedMemTable.packedEntry, length_append, putVarint32,
    length_putVarint64, length_putFixed64]
  omega

/-- **The closure of `add` writes the packed entry**, whatever the buffer holds before. -/
theorem writes_fill (a : Addition) : Writes [] a.fill a.entry.pack a.entry.pack.length := by
  have hpack : a.entry.pack = putVarint32 ((a.key.length + 8) % 2 ^ 32) ++ (a.key ++
      (putFixed64 (a.sequence <<< 8 % 2 ^ 64 ||| a.valueType.toByte) ++
        (putVarint32 (a.value.length % 2 ^ 32) ++ (a.value ++ [])))) := by
    rw [← packedEntry_eq, PackedMemTable.packedEntry, putFixed64_tag, append_nil]
  rw [length_pack_entry, hpack, fill]
  refine ((writes_encodeVarint64 _).fromPlace rfl).bind ?_
  refine ((fills_copyFromSlice a.key).inSlice ?_ rfl).bind ?_
  · exact (length_putVarint64 _).symm
  refine ((fills_encodeFixed64 _).inSlice ?_ ?_).bind ?_
  · rw [nil_append, length_append, length_putVarint64]
  · rw [length_putFixed64]
  refine ((writes_encodeVarint64 _).fromPlace ?_).bind ?_
  · simp only [nil_append, length_append, length_putVarint64, length_putFixed64]
  refine ((fills_copyFromSlice a.value).inSlice ?_ rfl).bind (writes_pure _ _)
  simp only [nil_append, length_append, length_putVarint64, length_putFixed64]

/-- The buffer has room: a length that is cut to 32 bits gets no longer. -/
theorem length_pack_entry_le (a : Addition) : a.entry.pack.length ≤ a.encodedSize := by
  have hkey : varintLength ((a.key.length + 8) % 2 ^ 32) ≤ varintLength (a.key.length + 8) :=
    varintLength_mono (Nat.mod_le _ _)
  have hval : varintLength (a.value.length % 2 ^ 32) ≤ varintLength a.value.length :=
    varintLength_mono (Nat.mod_le _ _)
  rw [length_pack_entry, encodedSize]
  omega

theorem fill_eq {a : Addition} {buffer : Bytes} (hbuf : buffer.length = a.encodedSize) :
    a.fill buffer =
      some (a.entry.pack.length, a.entry.pack ++ buffer.drop a.entry.pack.length) := by
  have hfill := a.writes_fill buffer
  rwa [nil_append, if_pos (hbuf ▸ a.length_pack_entry_le), nil_append] at hfill

end Addition

/-- **`add` with its buffer**: the closure fills a buffer of the encoded size, which may hold
anything, and its last offset is asserted to be that size. -/
theorem PackedMemTable.add_eq_fill {c : Comparator} (m : PackedMemTable c) (a : Addition)
    {buffer : Bytes} (hbuf : buffer.length = a.encodedSize) :
    m.add a = do
      let filled ← a.fill buffer
      guard (filled.1 = a.encodedSize)
      let list ← m.list.insert filled.2
      return (a.encodedSize, { list }) := by
  rw [PackedMemTable.add, a.packedEntry_eq, Addition.fill_eq hbuf]
  by_cases hfull : a.entry.pack.length = a.encodedSize
  · rw [drop_of_length_le (Nat.le_of_eq (hbuf.trans hfull.symm)), append_nil]
    rfl
  · simp only [some_bind, guard, if_neg hfull]
    exact congrArg (Option.bind · _) (if_neg hfull)

/-! ### What is read -/

namespace Indexed

/-- The slice behind a length, and the place where it ends. -/
def sliceBehind (data : Bytes) (length : ℕ × Bytes) : Option (Bytes × ℕ) :=
  if length.2.length < length.1 then none
  else some (length.2.take length.1, data.length - length.2.length + length.1)

theorem slice_eq {data : Bytes} {start : ℕ} (hstart : start ≤ data.length) (len : ℕ) :
    slice data start (start + len) =
      if (data.drop start).length < len then none else some ((data.drop start).take len) := by
  rw [slice, drop_take, Nat.add_sub_cancel_left, length_drop]
  split_ifs <;> first | rfl | omega

theorem bind_slice_eq {data : Bytes} {start : ℕ} (hstart : start ≤ data.length) (len : ℕ) :
    ((slice data start (start + len)).bind fun s => some (s, start + len)) =
      sliceBehind data (len, data.drop start) := by
  have hp : data.length - (data.drop start).length = start := by
    rw [length_drop]
    omega
  rw [slice_eq hstart, sliceBehind, hp]
  split_ifs <;> rfl

theorem prefixLoop_eq (data : Bytes) (places index result : ℕ) :
    prefixLoop data places index result =
      (varintLoop 32 places (7 * index) result (data.drop index)).bind (sliceBehind data) := by
  induction places generalizing index result with
  | zero => rfl
  | succ places ih =>
    rw [prefixLoop]
    rcases hbyte : data[index]? with _ | byte
    · rw [drop_eq_nil_iff.mpr (List.getElem?_eq_none_iff.mp hbyte)]
      rfl
    · obtain ⟨hlt, rfl⟩ := List.getElem?_eq_some_iff.mp hbyte
      rw [drop_eq_getElem_cons hlt, varintLoop]
      simp only [some_bind]
      split_ifs with hmore
      · exact ih (index + 1) _
      · exact bind_slice_eq hlt _

/-- **The decoder of the memtable reads what the cursor reads.** -/
theorem getMemtableLengthPrefixedSlice_eq (data : Bytes) :
    getMemtableLengthPrefixedSlice data = PulsearcDb.getMemtableLengthPrefixedSlice data := by
  have hbind : PulsearcDb.getMemtableLengthPrefixedSlice data =
      (lengthAndRest 32 4 data).bind (sliceBehind data) := rfl
  rw [hbind]
  cases data with
  | nil => rfl
  | cons first rest =>
    rw [getMemtableLengthPrefixedSlice, lengthAndRest]
    simp only [getElem?_cons_zero, some_bind]
    split_ifs with hshort
    · exact bind_slice_eq (Nat.succ_le_succ (Nat.zero_le _)) _
    · exact prefixLoop_eq _ 4 1 _

theorem uncheckedLoop_eq (entry : Bytes) (rounds len shift idx : ℕ) :
    uncheckedLoop entry rounds len shift idx =
      (varintLoop 64 rounds shift len (entry.drop idx)).map fun r =>
        (r.1, entry.length - r.2.length) := by
  induction rounds generalizing len shift idx with
  | zero => rfl
  | succ rounds ih =>
    rw [uncheckedLoop]
    rcases hbyte : entry[idx]? with _ | byte
    · rw [drop_eq_nil_iff.mpr (List.getElem?_eq_none_iff.mp hbyte)]
      rfl
    · obtain ⟨hlt, rfl⟩ := List.getElem?_eq_some_iff.mp hbyte
      rw [drop_eq_getElem_cons hlt, varintLoop, ite_not]
      simp only [some_bind]
      split_ifs with hlast
      · have hp : entry.length - (entry.drop (idx + 1)).length = idx + 1 := by
          rw [length_drop]
          omega
        rw [Option.map_some, hp]
        rfl
      · exact ih _ _ _

/-- **What the decoder without checks reads**: a length of at most ten bytes, and the bytes behind
it if they are all in the entry. -/
theorem memtableInternalKeyUnchecked_eq (entry : Bytes) :
    memtableInternalKeyUnchecked entry =
      (lengthAndRest 64 9 entry).bind fun r =>
        if r.2.length < r.1 then none else some (r.2.take r.1) := by
  cases entry with
  | nil => rfl
  | cons first rest =>
    rw [memtableInternalKeyUnchecked, lengthAndRest]
    simp only [getElem?_cons_zero, some_bind]
    split_ifs with hshort
    · exact slice_eq (Nat.succ_le_succ (Nat.zero_le _)) _
    · rw [uncheckedLoop_eq, drop_succ_cons, drop_zero]
      rcases hloop : varintLoop 64 9 7 (first &&& 0x7f).toNat rest with _ | ⟨len, behind⟩
      · rfl
      · have hlow := toNat_low_lt first
        obtain ⟨bytes, rfl, -⟩ := (varintLoop_eq_some_iff hlow (hlow.trans (by decide))).mp hloop
        have hbehind := suffix_iff_eq_drop.mp (suffix_append (first :: bytes) behind)
        have hslice := @slice_eq (first :: bytes ++ behind) _ (Nat.sub_le _ behind.length) len
        rwa [← hbehind] at hslice

theorem memtableInternalKeyUnchecked_append {ik : Bytes} (hik : ik.length < 2 ^ 32) (rest : Bytes) :
    memtableInternalKeyUnchecked (putLengthPrefixedSlice ik ++ rest) = some ik := by
  rw [memtableInternalKeyUnchecked_eq,
    lengthAndRest_append (by decide) hik (hik.trans (by decide)), Option.bind_some,
    if_neg (by simp), take_left]

end Indexed

theorem getMemtableLengthPrefixedSlice_eq_cursor (data : Bytes) :
    getMemtableLengthPrefixedSlice data =
      (getLengthPrefixedSlice data).1.map fun slice =>
        (slice, data.length - (getLengthPrefixedSlice data).2.length) := by
  rw [getMemtableLengthPrefixedSlice, lengthAndRest_eq (by decide), getLengthPrefixedSlice,
    getVarint32, getVarint]
  rcases hloop : varintLoop 32 (4 + 1) 0 0 data with _ | ⟨len, rest⟩
  · simp only [Option.bind_eq_bind, Option.bind_none, Option.map_none]
  · obtain ⟨bytes, rfl, -⟩ := varintLoop_zero_eq_some_iff.mp hloop
    rw [length_append]
    simp only [some_bind]
    split_ifs with hshort
    · rfl
    · have hp : bytes.length + rest.length - rest.length + len =
          bytes.length + rest.length - (rest.drop len).length := by
        rw [length_drop]
        omega
      rw [hp, Option.map_some]

/-- Both decoders of the memtable read the key at the front of a packed entry. -/
theorem Indexed.decoders_append {ik : Bytes} (hik : ik.length < 2 ^ 32) (rest : Bytes) :
    memtableInternalKeyUnchecked (putLengthPrefixedSlice ik ++ rest) = some ik ∧
      (getMemtableLengthPrefixedSlice (putLengthPrefixedSlice ik ++ rest)).map Prod.fst =
        some ik := by
  refine ⟨memtableInternalKeyUnchecked_append hik rest, ?_⟩
  rw [getMemtableLengthPrefixedSlice_eq, getMemtableLengthPrefixedSlice_append hik, Option.map_some]

/-- **The codecs of lengths agree.** The decoder of the memtable reads what is read through a
cursor; the decoder without checks reads the internal key of every entry that `add` or a lookup
builds, inside of the entry; and a varint has the computed length and the same bytes in a buffer and
in a vector, from which it is read back. -/
theorem length_codecs_agree :
    (∀ data : Bytes, Indexed.getMemtableLengthPrefixedSlice data =
      (getLengthPrefixedSlice data).1.map fun slice =>
        (slice, data.length - (getLengthPrefixedSlice data).2.length)) ∧
    (∀ (a : Addition) (buffer : Bytes), a.key.length + 8 < 2 ^ 32 →
      buffer.length = a.encodedSize → ∃ offset entry, a.fill buffer = some (offset, entry) ∧
        Indexed.memtableInternalKeyUnchecked entry = some a.entry.ik ∧
        (Indexed.getMemtableLengthPrefixedSlice entry).map Prod.fst = some a.entry.ik) ∧
    (∀ (key : Bytes) (sequence : ℕ) (lookup : LookupKey), key.length + 8 < 2 ^ 32 →
      LookupKey.new key sequence = some lookup →
        Indexed.memtableInternalKeyUnchecked lookup.memtableKey = some (lookupKey key sequence) ∧
        (Indexed.getMemtableLengthPrefixedSlice lookup.memtableKey).map Prod.fst =
          some (lookupKey key sequence)) ∧
    (∀ (value : ℕ) (dst rest : Bytes), value < 2 ^ 64 →
      encodeVarint64 value dst =
        (if varintLength value ≤ dst.length then
          some (varintLength value, putVarint64 value ++ dst.drop (varintLength value))
        else none) ∧
      (putVarint64 value).length = varintLength value ∧
      getVarint64 (putVarint64 value ++ rest) = (some value, rest)) := by
  refine ⟨fun data => ?_, fun a buffer hkey hbuf => ?_, fun key sequence lookup hkey hnew => ?_,
    fun value dst rest hval =>
      ⟨?_, length_putVarint64 value, getVarint64_putVarint64 rest hval⟩⟩
  · rw [Indexed.getMemtableLengthPrefixedSlice_eq, getMemtableLengthPrefixedSlice_eq_cursor]
  · have hik : a.entry.ik.length < 2 ^ 32 := by rwa [Addition.entry, length_internalKey]
    refine ⟨_, _, Addition.fill_eq hbuf, ?_⟩
    rw [Entry.pack, append_assoc]
    exact Indexed.decoders_append hik _
  · have hik : (lookupKey key sequence).length < 2 ^ 32 := by rwa [lookupKey, length_internalKey]
    have hdecoders := Indexed.decoders_append hik []
    rwa [append_nil, ← LookupKey.memtableKey_of_new hnew] at hdecoders
  · have hwrites := writes_encodeVarint64 value dst
    rwa [nil_append, nil_append, length_putVarint64] at hwrites

/-- An entry with a key of two hundred bytes, whose length takes two bytes, in a buffer of ones; the
key of a lookup; and a varint of two bytes in a buffer of three. -/
theorem length_codecs_agree_long_key :
    (∃ offset entry, Addition.fill ⟨5, .value, List.replicate 200 7, [1]⟩ (List.replicate 212 1) =
        some (offset, entry) ∧
      Indexed.memtableInternalKeyUnchecked entry =
        some (internalKey (List.replicate 200 7) 5 .value)) ∧
    (∃ lookup, LookupKey.new [7] 5 = some lookup ∧
      Indexed.memtableInternalKeyUnchecked lookup.memtableKey = some (lookupKey [7] 5)) ∧
    encodeVarint64 300 [0, 0, 0] = some (2, [0xac, 0x02, 0]) := by
  obtain ⟨-, hadd, hlook, hvar⟩ := length_codecs_agree
  obtain ⟨offset, entry, hfill, hkey, -⟩ := hadd ⟨5, .value, List.replicate 200 7, [1]⟩
    (List.replicate 212 1) (by decide +kernel) (by decide +kernel)
  refine ⟨⟨offset, entry, hfill, hkey⟩, ⟨_, rfl, ?_⟩, ?_⟩
  · exact (hlook [7] 5 _ (by decide) rfl).1
  · exact (hvar 300 [0, 0, 0] [] (by decide)).1.trans (by decide +kernel)

end PulsearcDb
