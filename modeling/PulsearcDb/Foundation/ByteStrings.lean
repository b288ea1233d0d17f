import Mathlib.Data.List.Lex
import Mathlib.Data.Nat.Bitwise
import Mathlib.Tactic.Ring
import Mathlib.Tactic.Linarith

/-!
# Byte strings

Byte strings are lists of `UInt8`, ordered lexicographically. The file provides the linear order
of bytes, and the two integer formats that byte oriented files are made of:

* `leBytes w n`, the `w` low bytes of `n`, least significant first, with value `leValue`
  (`leValue_leBytes`);
* `varintBytes n`, the base-128 form of `n` with a continuation bit on every byte but the last,
  read back by `varintLoop`, which gives up after a fixed number of bytes and works in a word of
  fixed width (`isVarint_varintBytes`). What it reads in general is `IsVarint`
  (`varintLoop_eq_some_iff`): there are longer forms of a number, and forms of larger ones.

Formats put pieces one after the other and refer to a piece by its offset, the length of what is
before it (`Pieces.offset`). What is read there begins with the piece (`Pieces.drop_offset`).
-/

namespace PulsearcDb

open List

/-- A byte string. -/
abbrev Bytes := List UInt8

instance instLinearOrderUInt8 : LinearOrder UInt8 where
  le_refl := UInt8.le_refl
  le_trans _ _ _ := UInt8.le_trans
  le_antisymm _ _ := UInt8.le_antisymm
  le_total := UInt8.le_total
  lt_iff_le_not_ge a b := by
    simp only [UInt8.lt_iff_toNat_lt, UInt8.le_iff_toNat_le]
    omega
  toDecidableLE := inferInstance
  toDecidableLT := inferInstance
  toDecidableEq := inferInstance
  toOrd := inferInstance
  compare_eq_compareOfLessAndEq _ _ := rfl

/-! ### Fixed width, little-endian -/

/-- The `w` low bytes of `n`, least significant first. -/
def leBytes : ℕ → ℕ → Bytes
  | 0, _ => []
  | w + 1, n => UInt8.ofNat (n % 256) :: leBytes w (n / 256)

/-- The number written by a little-endian byte string. -/
def leValue : Bytes → ℕ
  | [] => 0
  | b :: l => b.toNat + 256 * leValue l

@[simp] theorem length_leBytes (w n : ℕ) : (leBytes w n).length = w := by
  induction w generalizing n with
  | zero => rfl
  | succ w ih => simp [leBytes, ih]

theorem leValue_lt (l : Bytes) : leValue l < 256 ^ l.length := by
  induction l with
  | nil => simp [leValue]
  | cons b l ih =>
    have hb := b.toNat_lt
    simp only [leValue, length_cons, pow_succ]
    omega

theorem leValue_leBytes {w n : ℕ} (h : n < 256 ^ w) : leValue (leBytes w n) = n := by
  induction w generalizing n with
  | zero => simp [leBytes, leValue]; omega
  | succ w ih =>
    have hdiv : n / 256 < 256 ^ w := by
      rw [Nat.div_lt_iff_lt_mul (by decide)]
      simpa only [pow_succ] using h
    have hmod : (UInt8.ofNat (n % 256)).toNat = n % 256 := by
      simp
    simp only [leBytes, leValue, ih hdiv, hmod]
    omega

/-- Only the low bytes of a number are written. -/
theorem leBytes_mod (w n : ℕ) : leBytes w (n % 256 ^ w) = leBytes w n := by
  induction w generalizing n with
  | zero => rfl
  | succ w ih =>
    have hlow : n % 256 ^ (w + 1) % 256 = n % 256 := by
      rw [pow_succ, Nat.mod_mod_of_dvd _ (Nat.dvd_mul_left 256 _)]
    have hhigh : n % 256 ^ (w + 1) / 256 = n / 256 % 256 ^ w := by
      rw [pow_succ', Nat.mod_mul_right_div_self]
    rw [leBytes, leBytes, hlow, hhigh, ih]

/-! ### Base 128 with continuation bits -/

/-- The base-128 form of `n`: seven bits a byte, least significant first, the high bit set on every
byte but the last. -/
def varintBytes (n : ℕ) : Bytes :=
  if 0x80 ≤ n then (UInt8.ofNat (n &&& 0x7f) ||| 0x80) :: varintBytes (n >>> 7)
  else [UInt8.ofNat n]
termination_by n
decreasing_by
  simp only [Nat.shiftRight_eq_div_pow]
  omega

/-- Read a base-128 number of at most `steps` bytes into a word of `width` bits, of which `result`
holds the bits below `shift`. -/
def varintLoop (width : ℕ) : ℕ → ℕ → ℕ → Bytes → Option (ℕ × Bytes)
  | 0, _, _, _ => none
  | _ + 1, _, _, [] => none
  | steps + 1, shift, result, byte :: rest =>
    if byte &&& 0x80 ≠ 0 then
      varintLoop width steps (shift + 7)
        (result ||| ((byte &&& 0x7f).toNat <<< shift) % 2 ^ width) rest
    else some (result ||| (byte.toNat <<< shift) % 2 ^ width, rest)

theorem varintBytes_ne_nil (n : ℕ) : varintBytes n ≠ [] := by
  rw [varintBytes]
  split_ifs <;> simp

variable {shift width result steps value : ℕ} {input rest : Bytes}

/-- A number takes one byte for each seven bits. -/
theorem length_varintBytes_le {n : ℕ} (h : n < 2 ^ (7 * (steps + 1))) :
    (varintBytes n).length ≤ steps + 1 := by
  induction steps generalizing n with
  | zero =>
    rw [varintBytes, if_neg (by omega)]
    exact le_rfl
  | succ steps ih =>
    rw [varintBytes]
    split_ifs
    · have hnext : n >>> 7 < 2 ^ (7 * (steps + 1)) := by
        rw [Nat.shiftRight_eq_div_pow, Nat.div_lt_iff_lt_mul (by decide), ← pow_add]
        exact h
      exact Nat.succ_le_succ (ih hnext)
    · exact Nat.succ_le_succ (Nat.zero_le _)

private theorem and_7f (n : ℕ) : n &&& 0x7f = n % 128 := Nat.and_two_pow_sub_one_eq_mod n 7

private theorem toNat_continued (n : ℕ) :
    (UInt8.ofNat (n &&& 0x7f) ||| 0x80).toNat = n % 128 + 128 := by
  have hlow : (UInt8.ofNat (n &&& 0x7f)).toNat = n % 128 := by
    rw [and_7f, UInt8.toNat_ofNat', Nat.mod_eq_of_lt (by omega)]
  rw [UInt8.toNat_or, hlow, Nat.or_comm, show (0x80 : UInt8).toNat = 2 ^ 7 * 1 from rfl,
    ← Nat.two_pow_add_eq_or_of_lt (by omega)]
  omega

theorem continues_iff (b : UInt8) : b &&& 0x80 ≠ 0 ↔ 128 ≤ b.toNat := by
  have hlt := b.toNat_lt
  have hbit : (b &&& 0x80).toNat = 128 * (b.toNat / 128) := by
    have hcases : b.toNat / 128 = 0 ∨ b.toNat / 128 = 1 := by omega
    rw [UInt8.toNat_and, show (0x80 : UInt8).toNat = 2 ^ 7 from rfl, Nat.and_two_pow,
      Nat.testBit_eq_decide_div_mod_eq]
    rcases hcases with h | h <;> simp [h]
  rw [ne_eq, ← UInt8.toNat_inj, hbit]
  simp only [UInt8.toNat_zero]
  omega

private theorem toNat_low (b : UInt8) : (b &&& 0x7f).toNat = b.toNat % 128 := by
  rw [UInt8.toNat_and]
  exact and_7f b.toNat

theorem toNat_low_lt (b : UInt8) : (b &&& 0x7f).toNat < 2 ^ 7 := by
  rw [toNat_low]
  exact Nat.mod_lt _ (by decide)

private theorem or_shiftLeft {r m : ℕ} (hr : r < 2 ^ shift) :
    r ||| m <<< shift = r + m * 2 ^ shift := by
  rw [Nat.or_comm, ← Nat.shiftLeft_add_eq_or_of_lt hr, Nat.shiftLeft_eq, Nat.add_comm]

/-! ### The bytes of a base-128 number -/

/-- The number that the seven-bit groups of some bytes stand for. -/
def groupsValue : Bytes → ℕ
  | [] => 0
  | b :: l => b.toNat % 128 + 128 * groupsValue l

/-- The bytes are those of one base-128 number: all but the last have the continuation bit. -/
def IsGroups (bytes : Bytes) : Prop :=
  ∃ init last, bytes = init ++ [last] ∧ (∀ b ∈ init, 128 ≤ b.toNat) ∧ last.toNat < 128

/-- The bytes of a number in a word of `width` bits, at most `steps` of them. What does not fit the
word is lost. -/
structure IsVarint (width steps n : ℕ) (bytes : Bytes) : Prop where
  groups : IsGroups bytes
  length_le : bytes.length ≤ steps
  value : n = groupsValue bytes % 2 ^ width

theorem not_isGroups_nil : ¬ IsGroups [] := by
  rintro ⟨init, last, h, -⟩
  exact append_ne_nil_of_right_ne_nil init (cons_ne_nil last []) h.symm

theorem isGroups_cons {b : UInt8} {l : Bytes} :
    IsGroups (b :: l) ↔ if 128 ≤ b.toNat then IsGroups l else l = [] := by
  constructor
  · rintro ⟨init, last, h, hinit, hlast⟩
    cases init with
    | nil =>
      obtain ⟨rfl, rfl⟩ := List.cons.inj h
      rw [if_neg (not_le.mpr hlast)]
    | cons c init =>
      obtain ⟨rfl, rfl⟩ := List.cons.inj h
      rw [forall_mem_cons] at hinit
      rw [if_pos hinit.1]
      exact ⟨init, last, rfl, hinit.2, hlast⟩
  · intro h
    split_ifs at h with hb
    · obtain ⟨init, last, rfl, hinit, hlast⟩ := h
      exact ⟨b :: init, last, rfl, forall_mem_cons.mpr ⟨hb, hinit⟩, hlast⟩
    · subst h
      exact ⟨[], b, rfl, fun _ hc => absurd hc not_mem_nil, not_le.mp hb⟩

/-- The written bytes are those of the number. -/
theorem isGroups_varintBytes (n : ℕ) :
    IsGroups (varintBytes n) ∧ groupsValue (varintBytes n) = n := by
  fun_induction varintBytes n with
  | case1 n hbig ih =>
    have hbyte := toNat_continued n
    rw [isGroups_cons, if_pos (by omega), groupsValue, ih.2, hbyte]
    refine ⟨ih.1, ?_⟩
    rw [Nat.shiftRight_eq_div_pow]
    omega
  | case2 n hsmall =>
    have hbyte : (UInt8.ofNat n).toNat = n := by
      rw [UInt8.toNat_ofNat', Nat.mod_eq_of_lt (by omega)]
    rw [isGroups_cons, if_neg (by omega), groupsValue, hbyte]
    exact ⟨rfl, Nat.mod_eq_of_lt (by omega)⟩

theorem isVarint_varintBytes {n : ℕ} (hn : n < 2 ^ (7 * (steps + 1))) (hw : n < 2 ^ width) :
    IsVarint width (steps + 1) n (varintBytes n) where
  groups := (isGroups_varintBytes n).1
  length_le := length_varintBytes_le hn
  value := by rw [(isGroups_varintBytes n).2, Nat.mod_eq_of_lt hw]

namespace IsVarint

variable {n : ℕ} {bytes : Bytes} (h : IsVarint width steps n bytes)
include h

theorem length_pos : 0 < bytes.length :=
  length_pos_iff.mpr fun hnil => not_isGroups_nil (hnil ▸ h.groups)

theorem lt_two_pow : n < 2 ^ width := h.value ▸ Nat.mod_lt _ (Nat.two_pow_pos width)

end IsVarint

/-- A group that is put above what has been read, in a word. -/
private theorem or_group {m : ℕ} (hr : result < 2 ^ shift) (hw : result < 2 ^ width) :
    result ||| (m <<< shift) % 2 ^ width = (result + m * 2 ^ shift) % 2 ^ width := by
  rw [← or_shiftLeft hr, Nat.or_mod_two_pow, Nat.mod_eq_of_lt hw]

private theorem add_group_lt {m : ℕ} (hr : result < 2 ^ shift) (hm : m < 128) :
    (result + m * 2 ^ shift) % 2 ^ width < 2 ^ (shift + 7) := by
  have hle : m * 2 ^ shift ≤ 127 * 2 ^ shift := Nat.mul_le_mul_right _ (by omega)
  refine (Nat.mod_le _ _).trans_lt ?_
  rw [pow_add]
  omega

/-- **What the reader reads**: the bytes of one number, on top of what it has read before. -/
theorem varintLoop_eq_some_iff (hr : result < 2 ^ shift) (hw : result < 2 ^ width) :
    varintLoop width steps shift result input = some (value, rest) ↔
      ∃ bytes, input = bytes ++ rest ∧ IsGroups bytes ∧ bytes.length ≤ steps ∧
        value = (result + groupsValue bytes * 2 ^ shift) % 2 ^ width := by
  induction steps generalizing shift result input with
  | zero =>
    refine ⟨fun h => by simp [varintLoop] at h, ?_⟩
    rintro ⟨bytes, -, hg, hlen, -⟩
    rw [eq_nil_of_length_eq_zero (Nat.le_zero.mp hlen)] at hg
    exact absurd hg not_isGroups_nil
  | succ steps ih =>
    cases input with
    | nil =>
      refine ⟨fun h => by simp [varintLoop] at h, ?_⟩
      rintro ⟨bytes, hinput, hg, -⟩
      rw [(append_eq_nil_iff.mp hinput.symm).1] at hg
      exact absurd hg not_isGroups_nil
    | cons byte input =>
      rw [varintLoop]
      by_cases hmore : 128 ≤ byte.toNat
      · have hlow : byte.toNat % 128 < 128 := Nat.mod_lt _ (by decide)
        have hsum : ∀ groups, result + byte.toNat % 128 * 2 ^ shift + groups * 2 ^ (shift + 7) =
            result + (byte.toNat % 128 + 128 * groups) * 2 ^ shift := fun groups => by ring
        rw [if_pos ((continues_iff byte).mpr hmore), toNat_low, or_group hr hw,
          ih (add_group_lt hr hlow) (Nat.mod_lt _ (Nat.two_pow_pos width))]
        simp only [Nat.mod_add_mod, hsum]
        constructor
        · rintro ⟨bytes, rfl, hg, hlen, hval⟩
          refine ⟨byte :: bytes, rfl, ?_, Nat.succ_le_succ hlen, hval⟩
          rwa [isGroups_cons, if_pos hmore]
        · rintro ⟨bytes, hinput, hg, hlen, hval⟩
          obtain ⟨b, bytes, rfl⟩ := exists_cons_of_ne_nil (fun h => not_isGroups_nil (h ▸ hg))
          obtain ⟨rfl, rfl⟩ := List.cons.inj hinput
          rw [isGroups_cons, if_pos hmore] at hg
          exact ⟨bytes, rfl, hg, Nat.le_of_succ_le_succ hlen, hval⟩
      · have hbyte : byte.toNat % 128 = byte.toNat := Nat.mod_eq_of_lt (not_le.mp hmore)
        rw [if_neg (fun h => hmore ((continues_iff byte).mp h)), or_group hr hw, Option.some.injEq,
          Prod.mk.injEq]
        constructor
        · rintro ⟨rfl, rfl⟩
          refine ⟨[byte], rfl, isGroups_cons.mpr (by rw [if_neg hmore]), by simp, ?_⟩
          rw [groupsValue, groupsValue, hbyte, Nat.mul_zero, Nat.add_zero]
        · rintro ⟨bytes, hinput, hg, -, hval⟩
          obtain ⟨b, bytes, rfl⟩ := exists_cons_of_ne_nil (fun h => not_isGroups_nil (h ▸ hg))
          obtain ⟨rfl, rfl⟩ := List.cons.inj hinput
          rw [isGroups_cons, if_neg hmore] at hg
          subst hg
          rw [groupsValue, groupsValue, hbyte, Nat.mul_zero, Nat.add_zero] at hval
          exact ⟨hval.symm, rfl⟩

theorem varintLoop_zero_eq_some_iff :
    varintLoop width steps 0 0 input = some (value, rest) ↔
      ∃ bytes, input = bytes ++ rest ∧ IsVarint width steps value bytes := by
  rw [varintLoop_eq_some_iff Nat.one_pos (Nat.two_pow_pos width)]
  simp only [Nat.zero_add, pow_zero, mul_one]
  constructor
  · rintro ⟨bytes, hinput, hgroups, hlength, hval⟩
    exact ⟨bytes, hinput, hgroups, hlength, hval⟩
  · rintro ⟨bytes, hinput, hvar⟩
    exact ⟨bytes, hinput, hvar.groups, hvar.length_le, hvar.value⟩

end PulsearcDb

/-! ### Concatenated pieces -/

namespace PulsearcDb.Pieces

open List

variable {α : Type*} {L M : List (List α)} {x : List α} {i j : ℕ}

/-- The offset of a piece in the concatenation. -/
def offset (L : List (List α)) (i : ℕ) : ℕ := (L.take i).flatten.length

@[simp] theorem offset_length (L : List (List α)) : offset L L.length = L.flatten.length := by
  rw [offset, take_length]

theorem offset_succ (h : L[i]? = some x) : offset L (i + 1) = offset L i + x.length := by
  obtain ⟨hi, rfl⟩ := List.getElem?_eq_some_iff.mp h
  rw [offset, offset, take_succ_eq_append_getElem hi, flatten_append, length_append]
  simp

theorem offset_append (hi : i ≤ L.length) : offset (L ++ M) i = offset L i := by
  rw [offset, offset, take_append_of_le_length hi]

theorem flatten_eq (L : List (List α)) (i : ℕ) :
    L.flatten = (L.take i).flatten ++ (L.drop i).flatten := by
  rw [← flatten_append, take_append_drop]

theorem offset_mono (hij : i ≤ j) : offset L i ≤ offset L j := by
  have htake : L.take i = (L.take j).take i := by rw [take_take, Nat.min_eq_left hij]
  rw [offset, offset, htake, flatten_eq (L.take j) i, length_append]
  exact Nat.le_add_right _ _

theorem offset_le (L : List (List α)) (i : ℕ) : offset L i ≤ L.flatten.length := by
  rw [flatten_eq L i, length_append]
  exact Nat.le_add_right _ _

theorem offset_lt (hL : ∀ x ∈ L, x ≠ []) (hij : i < j) (hi : i < L.length) :
    offset L i < offset L j := by
  have hpos : 0 < (L[i]).length := length_pos_iff.mpr (hL _ (getElem_mem hi))
  have hsucc := offset_succ (getElem?_eq_getElem hi)
  have hle : offset L (i + 1) ≤ offset L j := offset_mono hij
  omega

theorem offset_le_iff (hL : ∀ x ∈ L, x ≠ []) (hi : i ≤ L.length) :
    offset L i ≤ offset L j ↔ i ≤ j := by
  refine ⟨fun h => ?_, offset_mono⟩
  by_contra hji
  have hlt : offset L j < offset L i := offset_lt hL (Nat.lt_of_not_le hji) (by omega)
  omega

theorem length_le_length_flatten (hL : ∀ x ∈ L, x ≠ []) : L.length ≤ L.flatten.length := by
  induction L with
  | nil => exact Nat.zero_le _
  | cons x L ih =>
    have hpos : 0 < x.length := length_pos_iff.mpr (hL x mem_cons_self)
    have hrest := ih fun y hy => hL y (mem_cons_of_mem x hy)
    rw [flatten_cons, length_append, length_cons]
    omega

/-- A piece is read at its offset. -/
theorem drop_offset (h : L[i]? = some x) (rest : List α) :
    (L.flatten ++ rest).drop (offset L i) = x ++ ((L.drop (i + 1)).flatten ++ rest) := by
  obtain ⟨hi, rfl⟩ := List.getElem?_eq_some_iff.mp h
  rw [flatten_eq L i, append_assoc, offset, drop_left, drop_eq_getElem_cons hi,
    flatten_cons, append_assoc]

end PulsearcDb.Pieces
