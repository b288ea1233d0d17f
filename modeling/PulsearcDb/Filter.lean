import PulsearcDb.Coding

/-!
# Filter policies

A `FilterPolicy` (`filter/filter.rs`) turns a set of keys into a byte string that later says whether
a key may be among them; false positives are allowed, false negatives are not (`Honest`). The
built-in policy is a Bloom filter over the hash of `hash/hash.rs`. The keys of a table are internal
keys, and `internalFilterPolicy` hands the user policy what is left without the eight bytes of the
tag.

## Main results

* `honest_bloomFilterPolicy` : the probes of writer and reader are the same bits.
* `Honest.internalFilterPolicy` : the adapter for internal keys keeps a policy honest.
-/

namespace PulsearcDb

open List

/-! ### The hash -/

namespace Hash

/-- The multiplier of the hash. -/
def multiplier : UInt32 := 0xc6a4a793

/-- The words of four bytes, and the bytes that are left. -/
def words : UInt32 → Bytes → UInt32 × Bytes
  | h, a :: b :: c :: d :: rest =>
    let h := (h + UInt32.ofNat (decodeFixed32 [a, b, c, d])) * multiplier
    words (h ^^^ (h >>> 16)) rest
  | h, rest => (h, rest)

/-- The last mixing step, for one, two or three bytes that are left. -/
def mixRemainder (h : UInt32) : UInt32 :=
  let h := h * multiplier
  h ^^^ (h >>> 24)

/-- `hash`. -/
def hash (data : Bytes) (seed : UInt32) : UInt32 :=
  match words (seed ^^^ (UInt32.ofNat data.length * multiplier)) data with
  | (h, [a, b, c]) => mixRemainder (h + (c.toUInt32 <<< 16) + (b.toUInt32 <<< 8) + a.toUInt32)
  | (h, [a, b]) => mixRemainder (h + (b.toUInt32 <<< 8) + a.toUInt32)
  | (h, [a]) => mixRemainder (h + a.toUInt32)
  | (h, _) => h

end Hash

/-! ### Policies -/

/-- `trait FilterPolicy`. `createFilter` is what `create_filter` appends to its destination. -/
structure FilterPolicy where
  name : String
  createFilter : List Bytes → Bytes
  keyMayMatch : Bytes → Bytes → Bool

namespace FilterPolicy

/-- False negatives are not allowed. -/
def Honest (policy : FilterPolicy) : Prop :=
  ∀ keys, ∀ key ∈ keys, policy.keyMayMatch key (policy.createFilter keys) = true

/-- A filter of some keys has bytes. -/
def NonEmpty (policy : FilterPolicy) : Prop :=
  ∀ keys, keys ≠ [] → policy.createFilter keys ≠ []

end FilterPolicy

/-- The policy `AlwaysMatch` of the documentation of `filter`. -/
def alwaysMatch : FilterPolicy where
  name := "myapp.AlwaysMatch"
  createFilter _ := []
  keyMayMatch _ _ := true

theorem honest_alwaysMatch : alwaysMatch.Honest := fun _ _ _ => rfl

/-! ### The Bloom filter -/

namespace BloomFilterPolicy

/-- The seed of the Bloom hash. -/
def hashSeed : UInt32 := 0xbc9f1d34

/-- `u32::rotate_left`. -/
def rotateLeft (x : UInt32) (n : ℕ) : UInt32 := ⟨x.toBitVec.rotateLeft n⟩

/-- `K`, the product of `bits_per_key` and `0.69` in `f64`, cut to an integer and clamped. The cut
agrees with integer division as far as the clamp can see it. -/
def k (bitsPerKey : ℕ) : ℕ := min (max (bitsPerKey * 69 / 100) 1) 30

/-- The values of `h` in the probe loop. -/
def probes (delta : UInt32) : ℕ → UInt32 → List UInt32
  | 0, _ => []
  | count + 1, h => h :: probes delta count (h + delta)

/-- The bits of a key in an array of `bits` bits. -/
def bitPositions (count bits : ℕ) (key : Bytes) : List ℕ :=
  let h := Hash.hash key hashSeed
  (probes (rotateLeft h 15) count h).map fun h => h.toNat % bits

/-- The bit of a position in its byte. -/
def bitMask (bitPos : ℕ) : UInt8 := 1 <<< UInt8.ofNat (bitPos % 8)

/-- Set a bit of the array. -/
def setBit (array : Bytes) (bitPos : ℕ) : Bytes :=
  array.modify (bitPos / 8) (· ||| bitMask bitPos)

/-- Whether a bit of the array is set. -/
def testBit (array : Bytes) (bitPos : ℕ) : Bool :=
  array.getD (bitPos / 8) 0 &&& bitMask bitPos ≠ 0

/-- The number of bytes of the bit array, for at least 64 bits. The product is unbounded here and a
`usize` in the source. -/
def arrayLength (bitsPerKey : ℕ) (keys : List Bytes) : ℕ :=
  (max (keys.length * bitsPerKey) 64 + 7) / 8

/-- `create_filter`: the bit array, followed by the number of probes. -/
def createFilter (bitsPerKey : ℕ) (keys : List Bytes) : Bytes :=
  let bytes := arrayLength bitsPerKey keys
  let array := keys.foldl
    (fun array key => (bitPositions (k bitsPerKey) (bytes * 8) key).foldl setBit array)
    (List.replicate bytes 0)
  array ++ [UInt8.ofNat (k bitsPerKey)]

/-- All bits of the key are set; more than 30 probes match all keys. -/
def keyMayMatch (key filter : Bytes) : Bool :=
  if filter.length < 2 then false
  else
    let array := filter.take (filter.length - 1)
    let count := (filter.getD (filter.length - 1) 0).toNat
    if count > 30 then true
    else (bitPositions count (array.length * 8) key).all (testBit array)

end BloomFilterPolicy

/-- `BloomFilterPolicy::new`. -/
def bloomFilterPolicy (bitsPerKey : ℕ) : FilterPolicy where
  name := "pulsearc-db.BuiltinBloomFilter2"
  createFilter := BloomFilterPolicy.createFilter bitsPerKey
  keyMayMatch := BloomFilterPolicy.keyMayMatch

namespace BloomFilterPolicy

theorem k_le (bitsPerKey : ℕ) : k bitsPerKey ≤ 30 := min_le_right _ _

@[simp] theorem length_setBit (array : Bytes) (bitPos : ℕ) :
    (setBit array bitPos).length = array.length := by
  simp [setBit]

theorem bitMask_ne_zero (bitPos : ℕ) : bitMask bitPos ≠ 0 := by
  have hall : ∀ n < 8, (1 : UInt8) <<< UInt8.ofNat n ≠ 0 := by decide
  exact hall _ (Nat.mod_lt _ (by decide))

private theorem or_and_distrib (a b m : UInt8) : (a ||| b) &&& m = a &&& m ||| b &&& m := by
  apply UInt8.toNat_inj.mp
  simp [Nat.and_or_distrib_right]

theorem getD_setBit (array : Bytes) (bitPos i : ℕ) :
    (setBit array bitPos).getD i 0 =
      if bitPos / 8 = i ∧ i < array.length then array.getD i 0 ||| bitMask bitPos
      else array.getD i 0 := by
  rw [setBit, getD_eq_getElem?_getD, getElem?_modify, getD_eq_getElem?_getD]
  rcases lt_or_ge i array.length with hi | hi
  · rw [getElem?_eq_getElem hi]
    by_cases heq : bitPos / 8 = i
    · simp [heq, hi]
    · simp [heq]
  · rw [getElem?_eq_none hi]
    simp [not_lt.mpr hi]

/-- A bit that is set is read. -/
theorem testBit_setBit_self {array : Bytes} {bitPos : ℕ} (h : bitPos / 8 < array.length) :
    testBit (setBit array bitPos) bitPos = true := by
  rw [testBit, decide_eq_true_eq, getD_setBit, if_pos ⟨rfl, h⟩, or_and_distrib, UInt8.and_self]
  exact fun hzero => bitMask_ne_zero bitPos (UInt8.or_eq_zero_iff.mp hzero).2

/-- Setting a bit clears none. -/
theorem testBit_setBit {array : Bytes} {p : ℕ} (q : ℕ) (h : testBit array p = true) :
    testBit (setBit array q) p = true := by
  rw [testBit, decide_eq_true_eq] at h ⊢
  rw [getD_setBit]
  split_ifs
  · rw [or_and_distrib]
    exact fun hzero => h (UInt8.or_eq_zero_iff.mp hzero).1
  · exact h

theorem length_foldl_setBit (positions : List ℕ) (array : Bytes) :
    (positions.foldl setBit array).length = array.length := by
  induction positions generalizing array with
  | nil => rfl
  | cons p positions ih => rw [foldl_cons, ih, length_setBit]

/-- Bytes without a bit that is set stay as they are. -/
theorem getD_foldl_setBit {positions : List ℕ} {i : ℕ} (h : ∀ p ∈ positions, p / 8 ≠ i)
    (array : Bytes) : (positions.foldl setBit array).getD i 0 = array.getD i 0 := by
  induction positions generalizing array with
  | nil => rfl
  | cons p positions ih =>
    obtain ⟨hp, hpositions⟩ := forall_mem_cons.mp h
    rw [foldl_cons, ih hpositions, getD_setBit, if_neg fun hset => hp hset.1]

theorem testBit_foldl_setBit {array : Bytes} {p : ℕ} (positions : List ℕ)
    (h : testBit array p = true) : testBit (positions.foldl setBit array) p = true := by
  induction positions generalizing array with
  | nil => exact h
  | cons q positions ih => exact ih (testBit_setBit q h)

theorem testBit_foldl_setBit_of_mem {array : Bytes} {p : ℕ} {positions : List ℕ}
    (hp : p ∈ positions) (hlt : p / 8 < array.length) :
    testBit (positions.foldl setBit array) p = true := by
  induction positions generalizing array with
  | nil => cases hp
  | cons q positions ih =>
    rcases mem_cons.mp hp with rfl | hp
    · exact testBit_foldl_setBit positions (testBit_setBit_self hlt)
    · exact ih hp (by rwa [length_setBit])

section Array

variable (count bits : ℕ)

/-- The bits of all keys. -/
def setKeys (keys : List Bytes) (array : Bytes) : Bytes :=
  keys.foldl (fun array key => (bitPositions count bits key).foldl setBit array) array

variable {count bits}

theorem length_setKeys (keys : List Bytes) (array : Bytes) :
    (setKeys count bits keys array).length = array.length := by
  induction keys generalizing array with
  | nil => rfl
  | cons key keys ih => exact (ih _).trans (length_foldl_setBit _ array)

theorem testBit_setKeys {array : Bytes} {p : ℕ} (keys : List Bytes) (h : testBit array p = true) :
    testBit (setKeys count bits keys array) p = true := by
  induction keys generalizing array with
  | nil => exact h
  | cons key keys ih => exact ih (testBit_foldl_setBit _ h)

theorem testBit_setKeys_of_mem {array : Bytes} {p : ℕ} {keys : List Bytes} {key : Bytes}
    (hkey : key ∈ keys) (hp : p ∈ bitPositions count bits key) (hlt : p / 8 < array.length) :
    testBit (setKeys count bits keys array) p = true := by
  induction keys generalizing array with
  | nil => cases hkey
  | cons other keys ih =>
    rcases mem_cons.mp hkey with rfl | hkey
    · exact testBit_setKeys keys (testBit_foldl_setBit_of_mem hp hlt)
    · exact ih hkey (by rwa [length_foldl_setBit])

theorem lt_of_mem_bitPositions (hbits : 0 < bits) {p : ℕ} {key : Bytes}
    (hp : p ∈ bitPositions count bits key) : p < bits := by
  obtain ⟨h, -, rfl⟩ := mem_map.mp hp
  exact Nat.mod_lt _ hbits

end Array

theorem arrayLength_pos (bitsPerKey : ℕ) (keys : List Bytes) : 8 ≤ arrayLength bitsPerKey keys := by
  rw [arrayLength]
  omega

theorem createFilter_eq (bitsPerKey : ℕ) (keys : List Bytes) :
    createFilter bitsPerKey keys =
      setKeys (k bitsPerKey) (arrayLength bitsPerKey keys * 8) keys
        (List.replicate (arrayLength bitsPerKey keys) 0) ++ [UInt8.ofNat (k bitsPerKey)] := rfl

theorem length_createFilter (bitsPerKey : ℕ) (keys : List Bytes) :
    (createFilter bitsPerKey keys).length = arrayLength bitsPerKey keys + 1 := by
  rw [createFilter_eq, length_append, length_setKeys, length_replicate]
  rfl

/-- A byte of the filter of one key that none of its bits is in. -/
theorem getD_createFilter_singleton {bitsPerKey i : ℕ} {key : Bytes}
    (hi : i < arrayLength bitsPerKey [key])
    (h : ∀ p ∈ bitPositions (k bitsPerKey) (arrayLength bitsPerKey [key] * 8) key, p / 8 ≠ i) :
    (createFilter bitsPerKey [key]).getD i 0 = 0 := by
  rw [createFilter_eq, getD_append _ _ _ _ (by rwa [length_setKeys, length_replicate])]
  refine (getD_foldl_setBit h _).trans ?_
  simp [getD_eq_getElem?_getD, hi]

end BloomFilterPolicy

theorem nonEmpty_bloomFilterPolicy (bitsPerKey : ℕ) : (bloomFilterPolicy bitsPerKey).NonEmpty := by
  intro keys _ hnil
  have hlen := BloomFilterPolicy.length_createFilter bitsPerKey keys
  rw [show BloomFilterPolicy.createFilter bitsPerKey keys = [] from hnil] at hlen
  simp at hlen

open BloomFilterPolicy in
/-- **The Bloom filter has no false negatives.** -/
theorem honest_bloomFilterPolicy (bitsPerKey : ℕ) : (bloomFilterPolicy bitsPerKey).Honest := by
  intro keys key hkey
  change BloomFilterPolicy.keyMayMatch key (createFilter bitsPerKey keys) = true
  have harray : 8 ≤ arrayLength bitsPerKey keys := arrayLength_pos bitsPerKey keys
  have hlen := length_createFilter bitsPerKey keys
  have hk := k_le bitsPerKey
  generalize hset : setKeys (k bitsPerKey) (arrayLength bitsPerKey keys * 8) keys
    (List.replicate (arrayLength bitsPerKey keys) 0) = array at *
  have harrayLength : array.length = arrayLength bitsPerKey keys := by
    rw [← hset, length_setKeys, length_replicate]
  have hcnt : (UInt8.ofNat (k bitsPerKey)).toNat = k bitsPerKey := by
    rw [UInt8.toNat_ofNat', Nat.mod_eq_of_lt (by omega)]
  rw [BloomFilterPolicy.keyMayMatch, if_neg (by omega), createFilter_eq, hset, length_append,
    length_singleton, Nat.add_sub_cancel, take_left, harrayLength]
  simp only [getD_eq_getElem?_getD, harrayLength.symm, getElem?_concat_length,
    Option.getD_some, hcnt]
  rw [if_neg (by omega), all_eq_true]
  intro p hp
  rw [harrayLength] at hp
  rw [← hset]
  refine testBit_setKeys_of_mem hkey hp ?_
  have hlt := lt_of_mem_bitPositions (by omega) hp
  rw [length_replicate]
  omega

/-! ### Internal keys -/

/-- `user_key_of`. -/
def userKeyOf (internalKey : Bytes) : Bytes :=
  if internalKey.length ≥ 8 then internalKey.take (internalKey.length - 8) else internalKey

/-- `struct InternalFilterPolicy`. -/
def internalFilterPolicy (user : FilterPolicy) : FilterPolicy where
  name := user.name
  createFilter keys := user.createFilter (keys.map userKeyOf)
  keyMayMatch key filter := user.keyMayMatch (userKeyOf key) filter

theorem FilterPolicy.Honest.internalFilterPolicy {user : FilterPolicy} (h : user.Honest) :
    (internalFilterPolicy user).Honest :=
  fun _ _ hkey => h _ _ (mem_map_of_mem hkey)

end PulsearcDb
