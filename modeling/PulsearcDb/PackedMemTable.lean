import PulsearcDb.Entries
import PulsearcDb.SkipList

/-!
# The memtable as a skip list of packed entries

`MemTable` of `memtable/memtable.rs` as it is stored. An entry is one key of a skip list: the
internal key and the value, each behind its length as a varint. The comparator of the list reads the
internal keys out of the packed entries without checks of the bounds, and a lookup seeks a key that
is packed in the same way, without a value (`LookupKey` of `format/dbformat.rs`).

The memtable that is stored answers like the sorted list `MemTable`: `Packs` relates the two, an
addition keeps it (`exists_packs_addAll`), and under it lookups and collections agree
(`Packs.get_eq`, `Packs.collectEntries_eq`).
-/

namespace PulsearcDb

open Recency List

/-! ### Packed entries -/

/-- A length at the start of some bytes, and the bytes behind it: in one byte, or in a loop over at
most `steps` more in a word of `width` bits. -/
def lengthAndRest (width steps : ℕ) : Bytes → Option (ℕ × Bytes)
  | [] => none
  | first :: rest =>
    if first < 0x80 then some (first.toNat, rest)
    else varintLoop width steps 7 (first &&& 0x7f).toNat rest

/-- The slice, and the place where it ends. -/
def getMemtableLengthPrefixedSlice (data : Bytes) : Option (Bytes × ℕ) := do
  let (len, rest) ← lengthAndRest 32 4 data
  if rest.length < len then none
  else some (rest.take len, data.length - rest.length + len)

/-- Without checks: reading behind the end has no value here. -/
def memtableInternalKeyUnchecked (entry : Bytes) : Option Bytes := do
  let (len, rest) ← lengthAndRest 64 entry.length entry
  if rest.length < len then none else some (rest.take len)

/-- The internal key of a packed entry, as the comparator reads it. -/
def packedKey (entry : Bytes) : Bytes := (memtableInternalKeyUnchecked entry).getD []

/-- `KeyComparator::compare`. -/
def keyCompare (c : Comparator) (a b : Bytes) : Ordering :=
  match c.compare (userKey (packedKey a)) (userKey (packedKey b)) with
  | .eq => compare (keyTag (packedKey b)) (keyTag (packedKey a))
  | other => other

/-- `struct LookupKey`. -/
structure LookupKey where
  rep : Bytes
  kstart : ℕ

namespace LookupKey

/-- The sequence number is asserted to have 56 bits. -/
def new (key : Bytes) (sequence : ℕ) : Option LookupKey := do
  guard (sequence ≤ maxSequenceNumber)
  let length := putVarint32 ((key.length + 8) % 2 ^ 32)
  return { rep := length ++ (key ++ putFixed64 (packSequenceAndType sequence .value))
           kstart := length.length }

/-- The key with its length, as in the memtable. -/
def memtableKey (lookup : LookupKey) : Bytes := lookup.rep

/-- The key without length and tag. -/
def userKey (lookup : LookupKey) : Bytes :=
  (lookup.rep.take (lookup.rep.length - 8)).drop lookup.kstart

end LookupKey

/-- `struct MemTable`. -/
structure PackedMemTable (c : Comparator) where
  list : SkipList (keyCompare c) := {}

/-- The arguments of a call of `add`. -/
structure Addition where
  sequence : ℕ
  valueType : ValueType
  key : Bytes
  value : Bytes

namespace PackedMemTable

variable {c : Comparator}

/-- The bytes that `add` writes. -/
def packedEntry (sequence : ℕ) (valueType : ValueType) (key value : Bytes) : Bytes :=
  putVarint32 ((key.length + 8) % 2 ^ 32) ++ (key ++
    (putFixed64 (packSequenceAndType sequence valueType) ++
      (putVarint32 (value.length % 2 ^ 32) ++ value)))

/-- `add`, with the encoded size that it returns. The bytes have to fill the buffer. -/
def add (m : PackedMemTable c) (a : Addition) : Option (ℕ × PackedMemTable c) := do
  let internalKeySize := a.key.length + 8
  let encodedSize := varintLength internalKeySize + internalKeySize +
    varintLength a.value.length + a.value.length
  let entry := packedEntry a.sequence a.valueType a.key a.value
  guard (entry.length = encodedSize)
  let list ← m.list.insert entry
  return (encodedSize, { list })

/-- `get`: no value where the source has undefined behaviour or panics, and then its result. -/
def get (m : PackedMemTable c) (lookup : LookupKey) : Option (Option (Result Bytes)) := do
  let iter ← ({ list := m.list } : SkipListIter (keyCompare c)).seek lookup.memtableKey
  if iter.valid = false then return none
  let entry ← iter.key
  match getMemtableLengthPrefixedSlice entry with
  | none => return none
  | some (internalKey, valueOffset) =>
    if internalKey.length < 8 then
      return some (.error (Status.corruption "memtable: short internal key"))
    else if c.compare (userKey internalKey) lookup.userKey ≠ .eq then return none
    else if keyTypeByte internalKey = ValueType.deletion.toByte then
      return some (.error (Status.notFound "memtable tombstone"))
    else
      match getMemtableLengthPrefixedSlice (entry.drop valueOffset) with
      | some (value, _) => return some (.ok value)
      | none => return some (.error (Status.corruption "memtable: missing value"))

/-- The body of the loop of `collect_entries`, with its two expectations. -/
def unpack (entry : Bytes) : Option Pair := do
  let (internalKey, valueOffset) ← getMemtableLengthPrefixedSlice entry
  let (value, _) ← getMemtableLengthPrefixedSlice (entry.drop valueOffset)
  return (internalKey, value)

/-- The loop of `collect_entries`. -/
def collect : ℕ → SkipListIter (keyCompare c) → Option (List Pair)
  | 0, _ => none
  | rounds + 1, iter =>
    if iter.valid then do
      let entry ← unpack (← iter.key)
      let rest ← collect rounds (← iter.next)
      return entry :: rest
    else some []

/-- All entries, from the first on. -/
def collectEntries (m : PackedMemTable c) : Option (List Pair) := do
  let iter ← ({ list := m.list } : SkipListIter (keyCompare c)).seekToFirst
  collect m.list.rounds iter

/-- Calls of `add`, one after the other. -/
def addAll (m : PackedMemTable c) (adds : List Addition) : Option (PackedMemTable c) :=
  adds.foldlM (fun m a => (m.add a).map Prod.snd) m

end PackedMemTable

/-! ### Packing and unpacking -/

section Slices

variable {width steps : ℕ} {slice rest : Bytes}

/-- The short way and the loop read the same lengths as the varint readers. -/
theorem lengthAndRest_eq (hwidth : 7 ≤ width) (data : Bytes) :
    lengthAndRest width steps data = varintLoop width (steps + 1) 0 0 data := by
  cases data with
  | nil => rfl
  | cons first rest =>
    have hpow : 128 ≤ 2 ^ width := Nat.pow_le_pow_right (by decide : 0 < 2) hwidth
    have hlow := toNat_low_lt first
    have hshort : first < 0x80 ↔ ¬ first &&& 0x80 ≠ 0 := by
      rw [continues_iff, Nat.not_le, UInt8.lt_iff_toNat_lt]
      rfl
    rw [lengthAndRest, varintLoop]
    by_cases hfst : first < 0x80
    · have hsmall : first.toNat < 128 := UInt8.lt_iff_toNat_lt.mp hfst
      rw [if_pos hfst, if_neg (hshort.mp hfst), Nat.zero_or, Nat.shiftLeft_zero,
        Nat.mod_eq_of_lt (by omega)]
    · rw [if_neg hfst, if_pos (by rwa [hshort, not_not] at hfst), Nat.zero_or,
        Nat.shiftLeft_zero, Nat.mod_eq_of_lt (by omega)]

/-- The length in front of a slice. -/
theorem lengthAndRest_append (hwidth : 32 ≤ width) (hlen : slice.length < 2 ^ 32)
    (hsteps : slice.length < 2 ^ (7 * (steps + 1))) (rest : Bytes) :
    lengthAndRest width steps (putLengthPrefixedSlice slice ++ rest) =
      some (slice.length, slice ++ rest) := by
  have hpow : 2 ^ 32 ≤ 2 ^ width := Nat.pow_le_pow_right (by decide) hwidth
  rw [lengthAndRest_eq (by omega), putLengthPrefixedSlice, Nat.mod_eq_of_lt hlen, append_assoc]
  exact varintLoop_zero_eq_some_iff.mpr ⟨_, rfl, isVarint_varintBytes hsteps (by omega)⟩

theorem getMemtableLengthPrefixedSlice_append (hlen : slice.length < 2 ^ 32) (rest : Bytes) :
    getMemtableLengthPrefixedSlice (putLengthPrefixedSlice slice ++ rest) =
      some (slice, (putLengthPrefixedSlice slice).length) := by
  have hread := @lengthAndRest_append 32 4 slice le_rfl hlen (hlen.trans (by decide)) rest
  have hplace : (putLengthPrefixedSlice slice).length =
      (putLengthPrefixedSlice slice ++ rest).length - (slice ++ rest).length + slice.length := by
    simp only [putLengthPrefixedSlice, length_append]
    omega
  rw [getMemtableLengthPrefixedSlice, hread, hplace]
  simp only [some_bind, take_left]
  rw [if_neg (by simp)]

/-- The unchecked decoder stays in the bounds of a packed entry. -/
theorem memtableInternalKeyUnchecked_append (hlen : slice.length < 2 ^ 32) (rest : Bytes) :
    memtableInternalKeyUnchecked (putLengthPrefixedSlice slice ++ rest) = some slice := by
  set entry := putLengthPrefixedSlice slice ++ rest with hentry
  have hsteps : slice.length < 2 ^ (7 * (entry.length + 1)) := by
    have hle : slice.length ≤ entry.length := by
      simp only [hentry, putLengthPrefixedSlice, length_append]
      omega
    calc slice.length ≤ entry.length := hle
      _ < 2 ^ entry.length := Nat.lt_two_pow_self
      _ ≤ 2 ^ (7 * (entry.length + 1)) := Nat.pow_le_pow_right (by decide) (by omega)
  have hread := @lengthAndRest_append 64 entry.length slice (by decide) hlen hsteps rest
  rw [memtableInternalKeyUnchecked, hread]
  simp only [some_bind, take_left]
  rw [if_neg (by simp)]

theorem length_varintBytes (n : ℕ) : (varintBytes n).length = varintLength n := by
  induction n using Nat.strong_induction_on with
  | _ n ih =>
    rw [varintBytes, varintLength]
    by_cases hn : n < 128
    · rw [if_neg (Nat.not_le.mpr hn), if_pos hn]
      rfl
    · rw [if_pos (Nat.not_lt.mp hn), if_neg hn, length_cons, Nat.shiftRight_eq_div_pow]
      exact congrArg (· + 1) (ih _ (by omega))

end Slices

/-- The comparator has the order of internal keys, written out. -/
theorem keyCompare_eq (c : Comparator) (a b : Bytes) :
    keyCompare c a b = icmp c (packedKey a) (packedKey b) := by
  rcases hord : c.compare (userKey (packedKey a)) (userKey (packedKey b)) with _ | _ | _ <;>
    simp only [keyCompare, icmp, hord]

instance instTransCmpKeyCompare (c : Comparator) : Std.TransCmp (keyCompare c) where
  eq_swap {a b} := by
    rw [keyCompare_eq, keyCompare_eq]
    exact Std.OrientedCmp.eq_swap
  isLE_trans {a b d} hab hbd := by
    rw [keyCompare_eq] at *
    exact Std.TransCmp.isLE_trans hab hbd

namespace Entry

/-- The bytes of an entry in the list. -/
def pack (e : Entry) : Bytes := putLengthPrefixedSlice e.ik ++ putLengthPrefixedSlice e.value

/-- The lengths of an entry fit their prefixes, and its internal key has a tag. -/
structure Packable (e : Entry) : Prop where
  tag : 8 ≤ e.ik.length
  ik : e.ik.length < 2 ^ 32
  value : e.value.length < 2 ^ 32

variable {e e' : Entry}

theorem Packable.packedKey_pack (h : e.Packable) : packedKey e.pack = e.ik := by
  rw [packedKey, pack, memtableInternalKeyUnchecked_append h.ik, Option.getD_some]

theorem Packable.keyCompare_pack {c : Comparator} (h : e.Packable) (h' : e'.Packable) :
    keyCompare c e.pack e'.pack = icmp c e.ik e'.ik := by
  rw [keyCompare_eq, h.packedKey_pack, h'.packedKey_pack]

theorem Packable.unpack_pack (h : e.Packable) :
    PackedMemTable.unpack e.pack = some (e.ik, e.value) := by
  have hval := getMemtableLengthPrefixedSlice_append h.value []
  rw [append_nil] at hval
  rw [PackedMemTable.unpack, pack, getMemtableLengthPrefixedSlice_append h.ik]
  simp only [some_bind, drop_left, hval, Option.pure_def]

end Entry

namespace Addition

/-- The entry that is added. -/
def entry (a : Addition) : Entry := ⟨internalKey a.key a.sequence a.valueType, a.value⟩

/-- The sequence number has 56 bits, and the lengths are those that a memtable takes. -/
structure Fits (a : Addition) : Prop where
  sequence : a.sequence < 2 ^ 56
  key : a.key.length < 2 ^ 32 - 8
  value : a.value.length < 2 ^ 32 - 8

variable {a : Addition}

theorem Fits.packable (h : a.Fits) : a.entry.Packable where
  tag := by
    rw [entry, length_internalKey]
    omega
  ik := by
    have hkey := h.key
    rw [entry, length_internalKey]
    omega
  value := h.value.trans (by decide)

theorem packedEntry_eq (a : Addition) :
    PackedMemTable.packedEntry a.sequence a.valueType a.key a.value = a.entry.pack := by
  simp only [PackedMemTable.packedEntry, Entry.pack, entry, putLengthPrefixedSlice, internalKey,
    append_assoc, length_append, length_putFixed64]

theorem Fits.length_pack (h : a.Fits) : a.entry.pack.length =
    varintLength (a.key.length + 8) + (a.key.length + 8) + varintLength a.value.length +
      a.value.length := by
  have hval : a.value.length < 2 ^ 32 := h.packable.value
  have hik := h.packable.ik
  rw [entry, length_internalKey] at hik
  simp only [Entry.pack, entry, putLengthPrefixedSlice, length_append, length_internalKey,
    putVarint32, putVarint64, length_varintBytes, Nat.mod_eq_of_lt hik, Nat.mod_eq_of_lt hval]
  omega

end Addition

namespace LookupKey

variable {k : Bytes} {s : ℕ}

/-- The key that a lookup seeks is packed like an entry without a value. -/
theorem memtableKey_of_new {lookup : LookupKey} (h : LookupKey.new k s = some lookup) :
    lookup.memtableKey = putLengthPrefixedSlice (lookupKey k s) := by
  rw [LookupKey.new, guard] at h
  split_ifs at h
  · obtain rfl := Option.some.inj h
    rw [putLengthPrefixedSlice, lookupKey, length_internalKey, internalKey, memtableKey]
  · cases h

theorem exists_new (hk : k.length < 2 ^ 32 - 8) (hs : s ≤ maxSequenceNumber) :
    ∃ lookup, LookupKey.new k s = some lookup ∧ packedKey lookup.memtableKey = lookupKey k s ∧
      lookup.userKey = k := by
  have hlen : (lookupKey k s).length < 2 ^ 32 := by
    rw [lookupKey, length_internalKey]
    omega
  have hdec := memtableInternalKeyUnchecked_append hlen []
  rw [append_nil] at hdec
  obtain ⟨lookup, hnew, huser⟩ : ∃ lookup, LookupKey.new k s = some lookup ∧
      lookup.userKey = k := by
    refine ⟨_, by rw [LookupKey.new, guard, if_pos hs]; rfl, ?_⟩
    simp [LookupKey.userKey, ← append_assoc]
  refine ⟨lookup, hnew, ?_, huser⟩
  rw [memtableKey_of_new hnew, packedKey, hdec, Option.getD_some]

end LookupKey

namespace PackedMemTable

variable {c : Comparator} {m : PackedMemTable c} {entries : List Entry}

/-- **The memtable has these entries**, packed, in their order. -/
structure Packs (m : PackedMemTable c) (entries : List Entry) : Prop where
  packable : ∀ e ∈ entries, e.Packable
  holds : ∃ order, m.list.Holds order ∧ order.map m.list.keyOf = entries.map Entry.pack

/-- The entries are sorted by their internal keys. -/
theorem Packs.sorted (h : m.Packs entries) :
    entries.Pairwise fun a b => icmp c a.ik b.ik = .lt := by
  obtain ⟨order, hh, hkeys⟩ := h.holds
  have hsort : (entries.map Entry.pack).Pairwise fun a b => keyCompare c a b = .lt := by
    rw [← hkeys]
    exact pairwise_map.mpr hh.sorted
  refine (pairwise_map.mp hsort).imp_of_mem fun {a b} ha hb hlt => ?_
  rwa [(h.packable a ha).keyCompare_pack (h.packable b hb)] at hlt

/-- **A lookup in the stored memtable is one in the list of its entries.** -/
theorem Packs.get_eq {t : MemTable c} (h : m.Packs t.entries) {k : Bytes} {s : ℕ}
    (hk : k.length < 2 ^ 32 - 8) (hs : s ≤ maxSequenceNumber) :
    ∃ lookup, LookupKey.new k s = some lookup ∧ m.get lookup = some (t.get k s) := by
  obtain ⟨lookup, hnew, hpacked, huser⟩ := LookupKey.exists_new hk hs
  obtain ⟨order, hh, hkeys⟩ := h.holds
  refine ⟨lookup, hnew, ?_⟩
  -- The node that is found has the key of the entry that is found.
  have hfind : (order.find? fun x =>
      (keyCompare c lookup.memtableKey (m.list.keyOf x)).isLE).map m.list.keyOf =
        (t.seek (lookupKey k s)).map Entry.pack := by
    have hmap := congrArg (List.find? fun key => (keyCompare c lookup.memtableKey key).isLE) hkeys
    rw [find?_map, find?_map] at hmap
    refine hmap.trans (congrArg _ ?_)
    rw [MemTable.seek, ← head?_filter, ← head?_filter]
    refine congrArg _ (filter_congr fun e he => ?_)
    have hswap : icmp c e.ik (lookupKey k s) = (icmp c (lookupKey k s) e.ik).swap :=
      Std.OrientedCmp.eq_swap
    rw [Function.comp_apply, keyCompare_eq, hpacked, (h.packable e he).packedKey_pack, hswap]
    cases icmp c (lookupKey k s) e.ik <;> rfl
  rw [get, hh.seek_eq, MemTable.get]
  rcases hseek : t.seek (lookupKey k s) with _ | e
  · rw [hseek, Option.map_none, Option.map_eq_none_iff] at hfind
    simp [hfind, SkipListIter.valid]
  · rw [hseek, Option.map_some, Option.map_eq_some_iff] at hfind
    obtain ⟨x, hx, hkey⟩ := hfind
    have he : e.Packable := h.packable e (mem_of_find?_eq_some hseek)
    have hval := getMemtableLengthPrefixedSlice_append he.value []
    rw [append_nil] at hval
    simp only [hx, SkipListIter.valid, Option.isSome_some, hh.key_eq
      (mem_of_find?_eq_some hx), hkey, some_bind, Entry.pack,
      getMemtableLengthPrefixedSlice_append he.ik, drop_left, hval, huser,
      Nat.not_lt.mpr he.tag, bne_iff_ne, Bool.true_eq_false, if_false]
    split_ifs <;> rfl

/-- The rest of the loop of `collect_entries`, from a place of the list on. -/
theorem Packs.collect_eq {order : List ℕ} (h : m.Packs entries) (hh : m.list.Holds order)
    (hkeys : order.map m.list.keyOf = entries.map Entry.pack) {rounds i : ℕ}
    (hi : i ≤ entries.length) (hrounds : entries.length < i + rounds) :
    collect rounds ({ list := m.list, node := order[i]? } : SkipListIter (keyCompare c)) =
      some ((entries.drop i).map fun e => (e.ik, e.value)) := by
  have hlen : order.length = entries.length := by
    simpa using congrArg List.length hkeys
  induction rounds generalizing i with
  | zero => omega
  | succ rounds ih =>
    rw [collect]
    rcases Nat.lt_or_eq_of_le hi with hi | rfl
    · have hx : order[i]? = some order[i] := getElem?_eq_getElem (by omega)
      have hkey : m.list.keyOf order[i] = entries[i].pack := by
        have hget := congrArg (·[i]?) hkeys
        simpa [hx, getElem?_eq_getElem hi] using hget
      have he : entries[i].Packable := h.packable _ (getElem_mem hi)
      rw [hx]
      simp only [SkipListIter.valid, Option.isSome_some, if_true, hh.key_eq
        (getElem_mem _), hkey, some_bind, he.unpack_pack,
        hh.next_eq hx, ih (Nat.succ_le_of_lt hi) (by omega), Option.pure_def]
      rw [← getElem_cons_drop hi, map_cons]
    · rw [getElem?_eq_none (Nat.le_of_eq hlen), drop_length]
      rfl

/-- **A collection returns the entries in their order.** -/
theorem Packs.collectEntries_eq (h : m.Packs entries) :
    m.collectEntries = some (entries.map fun e => (e.ik, e.value)) := by
  obtain ⟨order, hh, hkeys⟩ := h.holds
  have hlen : order.length = entries.length := by
    simpa using congrArg List.length hkeys
  have hrounds := hh.length_lt_rounds
  rw [collectEntries, hh.seekToFirst_eq, head?_eq_getElem?]
  exact h.collect_eq hh hkeys (Nat.zero_le _) (by omega)

/-! ### Runs -/

/-- An entry as it is read back. -/
def unpackEntry (key : Bytes) : Entry := (unpack key).elim ⟨[], []⟩ fun p => ⟨p.1, p.2⟩

theorem unpackEntry_pack {e : Entry} (h : e.Packable) : unpackEntry e.pack = e := by
  rw [unpackEntry, h.unpack_pack]
  rfl

/-- The calls of `add` are insertions of the packed entries. -/
theorem addAll_eq {adds : List Addition} (hfits : ∀ a ∈ adds, a.Fits) (m : PackedMemTable c) :
    m.addAll adds = ((adds.map fun a => a.entry.pack).foldlM SkipList.insert m.list).map
      fun list => { list } := by
  induction adds generalizing m with
  | nil => rfl
  | cons a adds ih =>
    obtain ⟨ha, hfits⟩ := forall_mem_cons.mp hfits
    have hadd : (m.add a).map Prod.snd = (m.list.insert a.entry.pack).map fun list => { list } := by
      simp only [add, a.packedEntry_eq, ha.length_pack, guard, if_true]
      cases m.list.insert a.entry.pack <;> rfl
    rw [addAll, foldlM_cons, hadd, map_cons, foldlM_cons]
    cases m.list.insert a.entry.pack with
    | none => rfl
    | some list => exact ih hfits { list }

/-- **A run of `add`** of entries with different internal keys. -/
theorem exists_packs_addAll {adds : List Addition} (hfits : ∀ a ∈ adds, a.Fits)
    (hne : adds.Pairwise fun a b => icmp c a.entry.ik b.entry.ik ≠ .eq) :
    ∃ (m : PackedMemTable c) (entries : List Entry), ({} : PackedMemTable c).addAll adds = some m ∧
      m.Packs entries ∧ entries.Perm (adds.map Addition.entry) := by
  have hkeys : (adds.map fun a => a.entry.pack).Pairwise fun a b => keyCompare c a b ≠ .eq := by
    refine pairwise_map.mpr (hne.imp_of_mem fun {a b} ha hb hab => ?_)
    rwa [(hfits a ha).packable.keyCompare_pack (hfits b hb).packable]
  obtain ⟨list, order, hrun, hh, hperm⟩ := SkipList.exists_foldlM_insert hkeys
  have hpacked : ∀ key ∈ order.map list.keyOf, ∃ a ∈ adds, a.entry.pack = key := fun key hkey =>
    mem_map.mp (hperm.mem_iff.mp hkey)
  refine ⟨{ list }, (order.map list.keyOf).map unpackEntry, ?_, ⟨?_, order, hh, ?_⟩, ?_⟩
  · rw [addAll_eq hfits, hrun]
    rfl
  · intro e he
    obtain ⟨key, hkey, rfl⟩ := mem_map.mp he
    obtain ⟨a, ha, rfl⟩ := hpacked key hkey
    rw [unpackEntry_pack (hfits a ha).packable]
    exact (hfits a ha).packable
  · rw [map_map, map_congr_left (g := id), map_id]
    intro key hkey
    obtain ⟨a, ha, rfl⟩ := hpacked key hkey
    rw [Function.comp_apply, unpackEntry_pack (hfits a ha).packable, id]
  · refine (hperm.map unpackEntry).trans (List.Perm.of_eq ?_)
    rw [map_map]
    exact map_congr_left fun a ha => unpackEntry_pack (hfits a ha).packable

end PackedMemTable

/-- Calls of `add` on the sorted list. -/
def MemTable.addAll {c : Comparator} (t : MemTable c) (adds : List Addition) : MemTable c :=
  adds.foldl (fun t a => (t.add a.sequence a.valueType a.key a.value).2) t

theorem MemTable.perm_addAll {c : Comparator} (t : MemTable c) (adds : List Addition) :
    (t.addAll adds).entries.Perm (t.entries ++ adds.map Addition.entry) := by
  induction adds generalizing t with
  | nil => simp [addAll]
  | cons a adds ih =>
    refine (ih (t.insert a.entry)).trans ?_
    exact ((perm_orderedInsert _ _ _).append_right _).trans perm_middle.symm

namespace PackedMemTable

variable {c : Comparator} {adds : List Addition}

/-- **The stored memtable is the sorted list.** After the same calls of `add` it has the same
entries in the same order. -/
theorem exists_packs_memTable (hfits : ∀ a ∈ adds, a.Fits)
    (hne : adds.Pairwise fun a b => icmp c a.entry.ik b.entry.ik ≠ .eq) :
    ∃ m : PackedMemTable c, ({} : PackedMemTable c).addAll adds = some m ∧
      m.Packs (({} : MemTable c).addAll adds).entries := by
  obtain ⟨m, entries, hrun, hp, hperm⟩ := @exists_packs_addAll c adds hfits hne
  have hsame : entries.Perm (({} : MemTable c).addAll adds).entries :=
    hperm.trans (MemTable.perm_addAll {} adds).symm
  have heq : entries = (({} : MemTable c).addAll adds).entries := by
    refine hsame.eq_of_pairwise (fun a b ha hb hab hba => ?_)
      (hp.sorted.imp fun hlt => by rw [hlt]; rfl) (({} : MemTable c).addAll adds).sorted
    -- Two entries of one place in a strictly sorted list are the same.
    by_contra hdiff
    have : Std.Symm fun a b : Entry => icmp c a.ik b.ik ≠ .eq :=
      ⟨fun _ _ hne heq => hne (Std.OrientedCmp.eq_symm heq)⟩
    have hplaces : entries.Pairwise fun a b => icmp c a.ik b.ik ≠ .eq :=
      hp.sorted.imp fun hlt => by rw [hlt]; decide
    exact hplaces.forall ha (hsame.mem_iff.mpr hb) hdiff (Std.OrientedCmp.isLE_antisymm hab hba)
  exact ⟨m, hrun, heq ▸ hp⟩

end PackedMemTable

/-! ### Snapshot reads -/

namespace Addition

/-- What a read is told about an addition. -/
def answer (a : Addition) : Result Bytes :=
  match a.valueType with
  | .deletion => .error (Status.notFound "memtable tombstone")
  | .value => .ok a.value

variable {a b : Addition}

theorem Fits.sequence_le (h : a.Fits) : a.sequence ≤ maxSequenceNumber :=
  Nat.le_sub_one_of_lt h.sequence

theorem key_entry (a : Addition) : a.entry.key = a.key := userKey_internalKey _ _ _

theorem Fits.sequence_entry (h : a.Fits) : a.entry.sequence = a.sequence :=
  keySequence_internalKey h.sequence_le _ _

theorem Fits.valid_entry (h : a.Fits) : a.entry.Valid := ⟨_, _, _, h.sequence_le, rfl⟩

theorem Fits.answer_entry (h : a.Fits) : MemTable.answer a.entry = a.answer := by
  rw [MemTable.answer, entry, keyTypeByte_internalKey h.sequence_le, answer]
  cases a.valueType <;> rfl

/-- Additions of different keys or sequence numbers have different places. -/
theorem Fits.icmp_ne_eq {c : Comparator} [Std.LawfulEqCmp c.compare] (ha : a.Fits) (hb : b.Fits)
    (hne : (a.key, a.sequence) ≠ (b.key, b.sequence)) :
    icmp c a.entry.ik b.entry.ik ≠ .eq := by
  intro heq
  have hle : (c.compare a.key b.key).isLE := by
    have hle := @isLE_userKey a.entry.ik b.entry.ik c (by rw [heq]; rfl)
    rwa [entry, entry, userKey_internalKey, userKey_internalKey] at hle
  have hge : (c.compare b.key a.key).isLE := by
    have hge := @isLE_userKey b.entry.ik a.entry.ik c (by rw [Std.OrientedCmp.eq_symm heq]; rfl)
    rwa [entry, entry, userKey_internalKey, userKey_internalKey] at hge
  have hkey : a.key = b.key := Std.LawfulEqCmp.eq_of_compare (Std.OrientedCmp.isLE_antisymm hle hge)
  have htag : keyTag b.entry.ik = keyTag a.entry.ik := by
    rwa [icmp_of_userKey_eq (by rw [entry, entry, userKey_internalKey, userKey_internalKey, hkey]),
      Nat.compare_eq_eq] at heq
  have htypes : a.valueType.toByte < 256 ∧ b.valueType.toByte < 256 :=
    ⟨by cases a.valueType <;> decide, by cases b.valueType <;> decide⟩
  rw [entry, entry, keyTag_internalKey hb.sequence_le, keyTag_internalKey ha.sequence_le] at htag
  exact hne (Prod.ext hkey (by dsimp only; omega))

end Addition

/-- **What a memtable with these additions says.** A lookup tells about the newest addition of its
key that it may see, and nothing when there is none; a collection has the added entries in the order
of their internal keys. Every key of the list is read by the unchecked decoder within its bounds. -/
structure PackedMemTable.Reads {c : Comparator} (m : PackedMemTable c) (adds : List Addition) :
    Prop where
  get : ∀ k s, k.length < 2 ^ 32 - 8 → s < 2 ^ 56 → ∃ lookup o, LookupKey.new k s = some lookup ∧
    Answers Addition.key Addition.sequence {a | a ∈ adds} k s o ∧
    m.get lookup = some (o.map Addition.answer)
  collect : ∃ entries, m.collectEntries = some entries ∧
    entries.Perm (adds.map fun a => (internalKey a.key a.sequence a.valueType, a.value)) ∧
    Increasing (icmp c) entries
  decoded : ∀ node ∈ m.list.nodes.tail, ∃ ik,
    memtableInternalKeyUnchecked node.key = some ik ∧ 8 ≤ ik.length

namespace PackedMemTable

variable {c : Comparator} [Std.LawfulEqCmp c.compare] {adds : List Addition}

/-- An answer about entries, as one about additions. -/
theorem exists_answers_adds (hfits : ∀ a ∈ adds, a.Fits) {entries : List Entry}
    (hperm : entries.Perm (adds.map Addition.entry)) {k : Bytes} {s : ℕ} {o : Option Entry}
    (h : Answers Entry.key Entry.sequence (storeOf entries) k s o) :
    ∃ o', Answers Addition.key Addition.sequence {a | a ∈ adds} k s o' ∧
      o.map MemTable.answer = o'.map Addition.answer := by
  have hmem : ∀ a ∈ adds, a.entry ∈ entries := fun a ha =>
    hperm.mem_iff.mpr (mem_map_of_mem ha)
  cases o with
  | none =>
    refine ⟨none, fun a ha hkey => ?_, rfl⟩
    have hhidden := h a.entry (hmem a ha) (by rw [a.key_entry, hkey])
    rwa [(hfits a ha).sequence_entry] at hhidden
  | some e =>
    obtain ⟨he, hkey, hseq, hnewest⟩ := h
    obtain ⟨a, ha, rfl⟩ := mem_map.mp (hperm.mem_iff.mp he)
    rw [a.key_entry] at hkey
    rw [(hfits a ha).sequence_entry] at hseq
    refine ⟨some a, ⟨ha, hkey, hseq, fun b hb hbkey hbseq => ?_⟩, ?_⟩
    · have hle := hnewest b.entry (hmem b hb) (by rw [b.key_entry, hbkey])
      rw [(hfits b hb).sequence_entry, (hfits a ha).sequence_entry] at hle
      exact hle hbseq
    · rw [Option.map_some, Option.map_some, (hfits a ha).answer_entry]

omit [Std.LawfulEqCmp c.compare] in
/-- The keys of the list are packed entries. -/
theorem Packs.decoded {m : PackedMemTable c} {entries : List Entry} (h : m.Packs entries) :
    ∀ node ∈ m.list.nodes.tail, ∃ ik,
      memtableInternalKeyUnchecked node.key = some ik ∧ 8 ≤ ik.length := by
  intro node hnode
  obtain ⟨order, hh, hkeys⟩ := h.holds
  obtain ⟨i, hi⟩ := getElem?_of_mem hnode
  rw [getElem?_tail] at hi
  have hkey : m.list.keyOf (i + 1) = node.key := by
    rw [SkipList.keyOf, hi]
    rfl
  have hmem : i + 1 ∈ order := by
    have hmem := (hh.mem_iff (i + 1)).mpr (List.getElem?_eq_some_iff.mp hi).1
    exact (mem_cons.mp hmem).resolve_left (Nat.succ_ne_zero i)
  have hpacked : node.key ∈ entries.map Entry.pack := by
    rw [← hkeys, ← hkey]
    exact mem_map_of_mem hmem
  obtain ⟨e, he, hpack⟩ := mem_map.mp hpacked
  have hfits := h.packable e he
  exact ⟨e.ik, by rw [← hpack, Entry.pack, memtableInternalKeyUnchecked_append hfits.ik], hfits.tag⟩

/-- **The memtable answers snapshot reads exactly.** -/
theorem reads_addAll (adds : List Addition) (hfits : ∀ a ∈ adds, a.Fits)
    (hdist : adds.Pairwise fun a b => (a.key, a.sequence) ≠ (b.key, b.sequence)) :
    ∃ m : PackedMemTable c, ({} : PackedMemTable c).addAll adds = some m ∧ m.Reads adds := by
  have hplaces : adds.Pairwise fun a b => icmp c a.entry.ik b.entry.ik ≠ .eq :=
    hdist.imp_of_mem fun {a b} ha hb hne => (hfits a ha).icmp_ne_eq (hfits b hb) hne
  obtain ⟨m, hrun, hp⟩ := exists_packs_memTable hfits hplaces
  have hperm : (({} : MemTable c).addAll adds).entries.Perm (adds.map Addition.entry) :=
    MemTable.perm_addAll {} adds
  refine ⟨m, hrun, ?_, ?_, hp.decoded⟩
  · intro k s hk hs
    have hs : s ≤ maxSequenceNumber := Nat.le_sub_one_of_lt hs
    obtain ⟨lookup, hnew, hget⟩ := hp.get_eq hk hs
    have hvalid : ∀ e ∈ (({} : MemTable c).addAll adds).entries, e.Valid := fun e he => by
      obtain ⟨a, ha, rfl⟩ := mem_map.mp (hperm.mem_iff.mp he)
      exact (hfits a ha).valid_entry
    obtain ⟨o, hans, hlist⟩ := (({} : MemTable c).addAll adds).get_answers hvalid hs k
    obtain ⟨o', hans', hmap⟩ := exists_answers_adds hfits hperm hans
    exact ⟨lookup, o', hnew, hans', by rw [hget, hlist, hmap]⟩
  · refine ⟨_, hp.collectEntries_eq, ?_, pairwise_map.mpr hp.sorted⟩
    have hpairs := hperm.map fun e => (e.ik, e.value)
    rwa [map_map] at hpairs

/-- Two versions of a key, the newer one a tombstone, and a key with a length of two bytes. -/
theorem reads_addAll_three : ∃ m : PackedMemTable bytewiseComparator,
    ({} : PackedMemTable bytewiseComparator).addAll [⟨5, .value, [1], [9]⟩,
      ⟨7, .deletion, [1], []⟩, ⟨6, .value, List.replicate 130 1, [8]⟩] = some m ∧
    m.Reads [⟨5, .value, [1], [9]⟩, ⟨7, .deletion, [1], []⟩,
      ⟨6, .value, List.replicate 130 1, [8]⟩] := by
  refine reads_addAll _ (fun a ha => ?_) (by decide)
  have hall : ∀ a ∈ [(⟨5, .value, [1], [9]⟩ : Addition), ⟨7, .deletion, [1], []⟩,
      ⟨6, .value, List.replicate 130 1, [8]⟩], a.sequence < 2 ^ 56 ∧ a.key.length < 2 ^ 32 - 8 ∧
        a.value.length < 2 ^ 32 - 8 := by
    simp
  exact ⟨(hall a ha).1, (hall a ha).2.1, (hall a ha).2.2⟩

end PackedMemTable

end PulsearcDb
