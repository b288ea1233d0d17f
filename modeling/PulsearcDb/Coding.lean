import PulsearcDb.Foundation.ByteStrings

/-!
# Statuses and the coding module

The result type of the fallible operations (`status/status.rs`) and the integer and string codecs
of `coding/coding.rs`. The encoders return the bytes they append. The cursor-style decoders take
the bytes under the cursor and return what they decoded together with the cursor they leave, also
when they fail: `getLengthPrefixedSlice` has already moved past the length when it finds the
payload missing.

Integers are natural numbers; the width of the machine type shows where it matters, in the cast of
a length to `u32` and in the words that the varint decoders fill.
-/

namespace PulsearcDb

open List

/-! ### Statuses -/

/-- `status::Code`. -/
inductive Code
  | ok
  | notFound
  | corruption
  | notSupported
  | invalidArgument
  | ioError
  deriving DecidableEq, Repr

/-- A code with a message. -/
structure Status where
  code : Code
  message : String
  deriving DecidableEq, Repr

namespace Status

/-- The status of a key that is not there. -/
def notFound (message : String) : Status := ⟨.notFound, message⟩

/-- The status of malformed bytes. -/
def corruption (message : String) : Status := ⟨.corruption, message⟩

/-- The status of a bad argument. -/
def invalidArgument (message : String) : Status := ⟨.invalidArgument, message⟩

/-- The status of a failed file operation. -/
def ioError (message : String) : Status := ⟨.ioError, message⟩

/-- Whether a status is `NotFound`. -/
def isNotFound (s : Status) : Bool := s.code == .notFound

end Status

/-- A comparison of byte strings. -/
abbrev Compare := Bytes → Bytes → Ordering

/-- A key with its value. -/
abbrev Pair := Bytes × Bytes

/-- The keys are strictly increasing. -/
abbrev Increasing {α : Type*} (cmp : Compare) (entries : List (Bytes × α)) : Prop :=
  entries.Pairwise fun a b => cmp a.1 b.1 = .lt

/-- `status::Result`. -/
abbrev Result (α : Type*) := Except Status α

/-- `ok_or_else` on the result of a cursor decoder: the value and the cursor, or the given error. -/
def orCorruption {α : Type*} (message : String) : Option α × Bytes → Result (α × Bytes)
  | (some a, rest) => .ok (a, rest)
  | (none, _) => .error (Status.corruption message)

theorem orCorruption_eq_ok {α : Type*} {message : String} {r : Option α × Bytes} {p : α × Bytes} :
    orCorruption message r = .ok p ↔ r = (some p.1, p.2) := by
  obtain ⟨o, rest⟩ := r
  cases o <;> simp [orCorruption, Prod.ext_iff]

variable {n width steps : ℕ} {input rest value : Bytes} {α β : Type}
  {f : α → ExceptT Status Option β}

theorem bind_eq_ok {x : Result α} {f : α → Result β} {b : β} :
    x >>= f = .ok b ↔ ∃ a, x = .ok a ∧ f a = .ok b := by
  cases x <;> simp [bind, Except.bind]

theorem some_bind (a : α) (f : α → Option β) : some a >>= f = f a := rfl

@[simp] theorem ok_bind (a : α) (f : α → Result β) : (Except.ok a : Result α) >>= f = f a := rfl

@[simp] theorem error_bind (s : Status) (f : α → Result β) :
    (Except.error s : Result α) >>= f = .error s := rfl

/-- A call that may panic or fail, behind one that does not panic. -/
@[simp] theorem liftM_some_bind (a : α) (f : α → ExceptT Status Option β) :
    (liftM (some a : Option α) : ExceptT Status Option α) >>= f = f a := rfl

@[simp] theorem liftM_ok_bind (a : α) (f : α → ExceptT Status Option β) :
    (liftM (Except.ok a : Result α) : ExceptT Status Option α) >>= f = f a := rfl

/-- What a call has got when it neither panics nor fails. -/
theorem exists_of_some_bind {x : Option α} {b : β}
    (h : (liftM x : ExceptT Status Option α) >>= f = pure b) : ∃ a, x = some a ∧ f a = pure b := by
  cases x with
  | none => cases h
  | some a => exact ⟨a, rfl, h⟩

theorem exists_of_ok_bind {x : Result α} {b : β}
    (h : (liftM x : ExceptT Status Option α) >>= f = pure b) : ∃ a, x = .ok a ∧ f a = pure b := by
  cases x with
  | error e => cases h
  | ok a => exact ⟨a, rfl, h⟩

theorem exists_of_bind {x : ExceptT Status Option α} {b : β} (h : x >>= f = pure b) :
    ∃ a, x = pure a ∧ f a = pure b := by
  rcases x with _ | e | a
  · cases h
  · cases h
  · exact ⟨a, rfl, h⟩

/-! ### Fixed width integers -/

/-- Two bytes, little endian. -/
def putFixed16 (value : ℕ) : Bytes := leBytes 2 value

/-- Four bytes, little endian. -/
def putFixed32 (value : ℕ) : Bytes := leBytes 4 value

/-- Eight bytes, little endian. -/
def putFixed64 (value : ℕ) : Bytes := leBytes 8 value

/-- The number in the first four bytes. -/
def decodeFixed32 (src : Bytes) : ℕ := leValue (src.take 4)

/-- The number in the first eight bytes. -/
def decodeFixed64 (src : Bytes) : ℕ := leValue (src.take 8)

/-- Read one byte through a cursor. -/
def getU8 : Bytes → Option UInt8 × Bytes
  | [] => (none, [])
  | first :: rest => (some first, rest)

/-- The common body of the fixed width readers. -/
def getFixed (width : ℕ) (input : Bytes) : Option ℕ × Bytes :=
  if input.length < width then (none, input)
  else (some (leValue (input.take width)), input.drop width)

/-- Read two bytes through a cursor. -/
def getFixed16 : Bytes → Option ℕ × Bytes := getFixed 2

/-- Read four bytes through a cursor. -/
def getFixed32 : Bytes → Option ℕ × Bytes := getFixed 4

/-- Read eight bytes through a cursor. -/
def getFixed64 : Bytes → Option ℕ × Bytes := getFixed 8

theorem getFixed_leBytes (rest : Bytes) (h : n < 256 ^ width) :
    getFixed width (leBytes width n ++ rest) = (some n, rest) := by
  have hlen : ¬ (leBytes width n ++ rest).length < width := by simp
  rw [getFixed, if_neg hlen, take_left' (length_leBytes width n),
    drop_left' (length_leBytes width n), leValue_leBytes h]

theorem getFixed_eq_some_iff :
    getFixed width input = (some n, rest) ↔
      width ≤ input.length ∧ leValue (input.take width) = n ∧ input.drop width = rest := by
  rw [getFixed]
  split_ifs with hshort
  · exact iff_of_false (by simp) fun h => not_le.mpr hshort h.1
  · rw [Prod.mk.injEq, Option.some.injEq, and_iff_right (not_lt.mp hshort)]

@[simp] theorem length_putFixed64 (n : ℕ) : (putFixed64 n).length = 8 := length_leBytes 8 n

theorem decodeFixed64_putFixed64 (h : n < 2 ^ 64) : decodeFixed64 (putFixed64 n) = n := by
  rw [decodeFixed64, putFixed64, take_of_length_le (by simp)]
  exact leValue_leBytes (by simpa using h)

@[simp] theorem length_putFixed32 (n : ℕ) : (putFixed32 n).length = 4 := length_leBytes 4 n

theorem decodeFixed32_putFixed32 (rest : Bytes) (h : n < 2 ^ 32) :
    decodeFixed32 (putFixed32 n ++ rest) = n := by
  rw [decodeFixed32, take_left' (length_putFixed32 n)]
  exact leValue_leBytes (by simpa using h)

/-- Four zero bytes. -/
theorem decodeFixed32_drop_eq_zero {bytes : Bytes} {i : ℕ} (hlength : i + 4 ≤ bytes.length)
    (hzero : ∀ j, i ≤ j → j < i + 4 → bytes.getD j 0 = 0) : decodeFixed32 (bytes.drop i) = 0 := by
  have hbytes : (bytes.drop i).take 4 = List.replicate 4 0 := by
    refine eq_replicate_iff.mpr ⟨by rw [length_take, length_drop]; omega, ?_⟩
    intro x hx
    obtain ⟨j, hj, rfl⟩ := getElem_of_mem hx
    rw [length_take] at hj
    have hbyte := hzero (i + j) (Nat.le_add_right i j) (by omega)
    rw [getD_eq_getElem _ _ (by omega)] at hbyte
    rwa [getElem_take, getElem_drop]
  rw [decodeFixed32, hbytes]
  rfl

/-- An array of integers is read at multiples of four bytes. -/
theorem decodeFixed32_drop_array {ns : List ℕ} {i : ℕ} (hi : ns[i]? = some n) (hn : n < 2 ^ 32)
    (before behind : Bytes) :
    decodeFixed32 ((before ++ (ns.flatMap putFixed32 ++ behind)).drop (before.length + i * 4)) =
      n := by
  rw [drop_append, drop_of_length_le (by omega), nil_append, Nat.add_sub_cancel_left]
  induction ns generalizing i with
  | nil => simp at hi
  | cons m ns ih =>
    rw [flatMap_cons, append_assoc]
    cases i with
    | zero =>
      obtain rfl : m = n := by simpa using hi
      simpa using decodeFixed32_putFixed32 _ hn
    | succ i =>
      have hlength : (i + 1) * 4 = (putFixed32 m).length + i * 4 := by
        rw [length_putFixed32]
        omega
      rw [hlength, drop_append, drop_of_length_le (by omega), nil_append, Nat.add_sub_cancel_left]
      exact ih (by simpa using hi)

theorem length_flatMap_putFixed32 (ns : List ℕ) :
    (ns.flatMap putFixed32).length = ns.length * 4 := by
  induction ns with
  | nil => rfl
  | cons n ns ih =>
    rw [flatMap_cons, length_append, ih, length_putFixed32, length_cons]
    omega

/-! ### Varints and length-prefixed strings -/

/-- `put_varint64`, of at most ten bytes. -/
def putVarint64 (value : ℕ) : Bytes := varintBytes value

/-- `put_varint32` calls `put_varint64`. -/
def putVarint32 (value : ℕ) : Bytes := putVarint64 value

/-- A varint reader with a word of `width` bits and at most `steps` bytes. -/
def getVarint (width steps : ℕ) (input : Bytes) : Option ℕ × Bytes :=
  match varintLoop width steps 0 0 input with
  | some (value, rest) => (some value, rest)
  | none => (none, input)

/-- A `u32` in at most five bytes. -/
def getVarint32 : Bytes → Option ℕ × Bytes := getVarint 32 5

/-- A `u64` in at most ten bytes. -/
def getVarint64 : Bytes → Option ℕ × Bytes := getVarint 64 10

/-- A string behind its length, which is cut to a `u32`. -/
def putLengthPrefixedSlice (value : Bytes) : Bytes :=
  putVarint32 (value.length % 2 ^ 32) ++ value

/-- The length is read through the same cursor, so the cursor stays behind it on failure. -/
def getLengthPrefixedSlice (input : Bytes) : Option Bytes × Bytes :=
  match getVarint32 input with
  | (none, rest) => (none, rest)
  | (some len, rest) =>
    if rest.length < len then (none, rest) else (some (rest.take len), rest.drop len)

/-- A varint reader takes the bytes of one number. -/
theorem getVarint_eq_some_iff :
    getVarint width steps input = (some n, rest) ↔
      ∃ bytes, input = bytes ++ rest ∧ IsVarint width steps n bytes := by
  rw [← varintLoop_zero_eq_some_iff, getVarint]
  rcases varintLoop width steps 0 0 input with _ | ⟨value, tail⟩ <;> simp

/-- A varint reader that fails leaves the cursor where it was. -/
theorem eq_of_getVarint_eq_none (h : getVarint width steps input = (none, rest)) :
    rest = input := by
  rw [getVarint] at h
  split at h
  · simp at h
  · exact (Prod.mk.inj h).2.symm

private theorem length_lt_of_getVarint (h : getVarint width steps input = (some n, rest)) :
    rest.length < input.length := by
  obtain ⟨bytes, rfl, hvar⟩ := getVarint_eq_some_iff.mp h
  rw [length_append]
  exact Nat.lt_add_of_pos_left hvar.length_pos

theorem length_lt_of_getVarint32 (h : getVarint32 input = (some n, rest)) :
    rest.length < input.length :=
  length_lt_of_getVarint h

theorem length_lt_of_getVarint64 (h : getVarint64 input = (some n, rest)) :
    rest.length < input.length :=
  length_lt_of_getVarint h

private theorem lt_of_getVarint (h : getVarint width steps input = (some n, rest)) :
    n < 2 ^ width := by
  obtain ⟨bytes, -, hvar⟩ := getVarint_eq_some_iff.mp h
  exact hvar.lt_two_pow

theorem lt_of_getVarint32 (h : getVarint32 input = (some n, rest)) : n < 2 ^ 32 := lt_of_getVarint h

theorem lt_of_getVarint64 (h : getVarint64 input = (some n, rest)) : n < 2 ^ 64 := lt_of_getVarint h

theorem getVarint64_putVarint64 (rest : Bytes) (h : n < 2 ^ 64) :
    getVarint64 (putVarint64 n ++ rest) = (some n, rest) :=
  getVarint_eq_some_iff.mpr ⟨_, rfl, isVarint_varintBytes (h.trans (by decide)) h⟩

theorem getVarint32_putVarint32 (rest : Bytes) (h : n < 2 ^ 32) :
    getVarint32 (putVarint32 n ++ rest) = (some n, rest) :=
  getVarint_eq_some_iff.mpr ⟨_, rfl, isVarint_varintBytes (h.trans (by decide)) h⟩

/-- A string is read behind the bytes of its length. -/
theorem getLengthPrefixedSlice_eq_some_iff :
    getLengthPrefixedSlice input = (some value, rest) ↔
      ∃ length, input = length ++ (value ++ rest) ∧ IsVarint 32 5 value.length length := by
  constructor
  · intro h
    rw [getLengthPrefixedSlice] at h
    split at h
    · simp at h
    · rename_i len tail hlen
      obtain ⟨length, rfl, hvar⟩ := getVarint_eq_some_iff.mp hlen
      split_ifs at h with hshort
      · simp at h
      · obtain ⟨rfl, rfl⟩ : tail.take len = value ∧ tail.drop len = rest := by simpa using h
        refine ⟨length, by rw [take_append_drop], ?_⟩
        rwa [length_take_of_le (not_lt.mp hshort)]
  · rintro ⟨length, rfl, hvar⟩
    have hlen : getVarint32 (length ++ (value ++ rest)) = (some value.length, value ++ rest) :=
      getVarint_eq_some_iff.mpr ⟨length, rfl, hvar⟩
    have hlong : ¬ (value ++ rest).length < value.length := by simp
    simp only [getLengthPrefixedSlice, hlen, hlong, if_false, take_left, drop_left]

theorem length_lt_of_getLengthPrefixedSlice
    (h : getLengthPrefixedSlice input = (some value, rest)) : rest.length < input.length := by
  obtain ⟨length, rfl, hvar⟩ := getLengthPrefixedSlice_eq_some_iff.mp h
  have hpos := hvar.length_pos
  simp only [length_append]
  omega

/-- A string that is read has a 32-bit length. -/
theorem length_lt_two_pow_of_getLengthPrefixedSlice
    (h : getLengthPrefixedSlice input = (some value, rest)) : value.length < 2 ^ 32 := by
  obtain ⟨length, -, hvar⟩ := getLengthPrefixedSlice_eq_some_iff.mp h
  exact hvar.lt_two_pow

/-- A string is read without a look at the bytes behind it. -/
theorem getLengthPrefixedSlice_append (tail : Bytes)
    (h : getLengthPrefixedSlice input = (some value, rest)) :
    getLengthPrefixedSlice (input ++ tail) = (some value, rest ++ tail) := by
  obtain ⟨length, rfl, hvar⟩ := getLengthPrefixedSlice_eq_some_iff.mp h
  exact getLengthPrefixedSlice_eq_some_iff.mpr ⟨length, by simp, hvar⟩

theorem getLengthPrefixedSlice_put (rest : Bytes) (h : value.length < 2 ^ 32) :
    getLengthPrefixedSlice (putLengthPrefixedSlice value ++ rest) = (some value, rest) := by
  refine getLengthPrefixedSlice_eq_some_iff.mpr
    ⟨_, ?_, isVarint_varintBytes (h.trans (by decide)) h⟩
  rw [putLengthPrefixedSlice, Nat.mod_eq_of_lt h, append_assoc]
  rfl

end PulsearcDb
