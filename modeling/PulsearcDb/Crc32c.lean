import PulsearcDb.Coding
import PulsearcDb.Foundation.ShiftRegister

/-!
# CRC32C

`crc32c/crc32c.rs`. The checksum is computed one byte at a time with the table of the reflected
Castagnoli polynomial. `extend` continues a checksum (`extend_append`), and `mask`, applied to every
checksum that is stored, has `unmask` as its inverse (`unmask_mask`).

`extend_software` takes four bytes at a time, with three more tables that are derived from the first
one, and single bytes at the end. The bits of the checksum and of the bytes go through one shift
register (`Foundation.ShiftRegister`): a table of the source is a number of steps of it
(`table1_eq`), so a word step is 32 steps (`step4_eq`) and four byte steps are too.

The checksum is defined bit by bit in `bitwise`. The other paths of `extend` use instructions of the
processor and are not modelled.
-/

namespace PulsearcDb.Crc32c

open ShiftRegister List

/-- The reversed Castagnoli polynomial. -/
def poly : UInt32 := 0x82f63b78

/-- What `mask` adds. -/
def maskDelta : UInt32 := 0xa282ead8

/-- One turn of the inner loop of `make_table0`. -/
def table0Step (crc : UInt32) : UInt32 :=
  if crc &&& 1 ≠ 0 then (crc >>> 1) ^^^ poly else crc >>> 1

/-- `TABLE0[i]`. -/
def table0 (i : UInt8) : UInt32 := table0Step^[8] i.toUInt32

/-- One byte by the table. -/
def extendByte (crc : UInt32) (byte : UInt8) : UInt32 :=
  table0 (crc.toUInt8 ^^^ byte) ^^^ (crc >>> 8)

/-- The checksum of a string behind one with the checksum `initCrc`. -/
def extend (initCrc : UInt32) (data : Bytes) : UInt32 :=
  data.foldl extendByte (initCrc ^^^ 0xffffffff) ^^^ 0xffffffff

/-- The checksum of a string. -/
def value (data : Bytes) : UInt32 := extend 0 data

/-- `u32::rotate_right`. -/
def rotateRight (x : UInt32) (n : ℕ) : UInt32 := ⟨x.toBitVec.rotateRight n⟩

/-- The form in which checksums are stored. -/
def mask (crc : UInt32) : UInt32 := rotateRight crc 15 + maskDelta

/-- The inverse of `mask`. -/
def unmask (maskedCrc : UInt32) : UInt32 := rotateRight (maskedCrc - maskDelta) 17

/-- Checksums are computed piecewise. -/
theorem extend_append (crc : UInt32) (a b : Bytes) :
    extend crc (a ++ b) = extend (extend crc a) b := by
  simp only [extend, foldl_append, UInt32.xor_assoc, UInt32.xor_self, UInt32.xor_zero]

private theorem rotateRight_rotateRight (x : BitVec 32) :
    (x.rotateRight 15).rotateRight 17 = x := by
  ext i hi
  simp only [BitVec.getElem_rotateRight]
  split_ifs with h h' h'
  · omega
  · congr 1
    omega
  · congr 1
    omega
  · omega

theorem unmask_mask (crc : UInt32) : unmask (mask crc) = crc := by
  simp only [unmask, mask, UInt32.add_sub_cancel, rotateRight, rotateRight_rotateRight]

/-! ### Slicing -/

/-- `make_table_next`. -/
def makeTableNext (previous base : UInt8 → UInt32) (i : UInt8) : UInt32 :=
  let crc := previous i
  (crc >>> 8) ^^^ base crc.toUInt8

/-- The table for bytes with one byte behind them. -/
def table1 : UInt8 → UInt32 := makeTableNext table0 table0

/-- The table for bytes with two bytes behind them. -/
def table2 : UInt8 → UInt32 := makeTableNext table1 table0

/-- The table for bytes with three bytes behind them. -/
def table3 : UInt8 → UInt32 := makeTableNext table2 table0

/-- `u32::from_le_bytes`. -/
def fromLeBytes (b0 b1 b2 b3 : UInt8) : UInt32 :=
  b0.toUInt32 ||| (b1.toUInt32 <<< 8) ||| (b2.toUInt32 <<< 16) ||| (b3.toUInt32 <<< 24)

/-- Four bytes in one step, by the four tables. -/
def step4 (crc : UInt32) (data : Bytes) (offset : ℕ) : UInt32 :=
  let word := fromLeBytes (data.getD offset 0) (data.getD (offset + 1) 0)
    (data.getD (offset + 2) 0) (data.getD (offset + 3) 0)
  let c := crc ^^^ word
  table3 c.toUInt8 ^^^ table2 (c >>> 8).toUInt8 ^^^ table1 (c >>> 16).toUInt8 ^^^
    table0 (c >>> 24).toUInt8

/-- A loop of `extend_software` over pieces of `size` bytes. -/
def pieces (size : ℕ) (step : UInt32 → ℕ → UInt32) (length : ℕ) (crc : UInt32) (offset : ℕ) :
    UInt32 × ℕ :=
  if 0 < size ∧ offset + size ≤ length then
    pieces size step length (step crc offset) (offset + size)
  else (crc, offset)
termination_by length - offset
decreasing_by omega

/-- Pieces of 16 and 4 bytes, then single bytes. -/
def extendSoftware (initCrc : UInt32) (data : Bytes) : UInt32 :=
  let crc := initCrc ^^^ 0xffffffff
  let (crc, offset) := pieces 16 (fun crc offset =>
    let crc := step4 crc data offset
    let crc := step4 crc data (offset + 4)
    let crc := step4 crc data (offset + 8)
    step4 crc data (offset + 12)) data.length crc 0
  let (crc, offset) := pieces 4 (fun crc offset => step4 crc data offset) data.length crc offset
  let (crc, _) := pieces 1 (fun crc offset => extendByte crc (data.getD offset 0)) data.length crc
    offset
  crc ^^^ 0xffffffff

/-! ### The checksum bit by bit -/

/-- The bits of a byte, lowest first. -/
def bits (byte : UInt8) : List Bool := (List.range 8).map byte.toBitVec.getLsbD

/-- A bit of the message goes into the register. -/
def bitStep (crc : UInt32) (bit : Bool) : UInt32 :=
  if crc.toBitVec.getLsbD 0 ^^ bit then (crc >>> 1) ^^^ 0x82f63b78 else crc >>> 1

/-- **The reflected CRC**, one bit at a time. -/
def bitwise (initCrc : UInt32) (data : Bytes) : UInt32 :=
  (data.flatMap bits).foldl bitStep (initCrc ^^^ 0xffffffff) ^^^ 0xffffffff

/-! ### Steps of the register -/

theorem toBitVec_table0Step (crc : UInt32) :
    (table0Step crc).toBitVec = step poly.toBitVec crc.toBitVec := by
  have hand : (crc &&& 1).toBitVec = BitVec.setWidth 32 (.ofBool (crc.toBitVec.getLsbD 0)) :=
    BitVec.and_one_eq_setWidth_ofBool_getLsbD
  rw [table0Step, step]
  cases hbit : crc.toBitVec.getLsbD 0 with
  | true =>
    have hne : crc &&& 1 ≠ 0 := by
      intro h
      rw [hbit, h] at hand
      exact absurd hand (by decide)
    rw [if_pos hne]
    rfl
  | false =>
    have heq : crc &&& 1 = 0 := by
      rw [hbit] at hand
      exact UInt32.toBitVec_inj.mp (hand.trans (by decide))
    rw [if_neg (not_not_intro heq)]
    rfl

theorem toBitVec_iterate_table0Step (n : ℕ) (crc : UInt32) :
    (table0Step^[n] crc).toBitVec = (step poly.toBitVec)^[n] crc.toBitVec := by
  induction n generalizing crc with
  | zero => rfl
  | succ n ih => rw [Function.iterate_succ_apply, ih, toBitVec_table0Step]; rfl

theorem toBitVec_bitStep (crc : UInt32) (bit : Bool) :
    (bitStep crc bit).toBitVec = feed poly.toBitVec crc.toBitVec bit := by
  have hbit : (crc.toBitVec ^^^ BitVec.setWidth 32 (.ofBool bit)).getLsbD 0 =
      (crc.toBitVec.getLsbD 0 ^^ bit) := by
    cases bit <;> simp
  have hshift : (crc.toBitVec ^^^ BitVec.setWidth 32 (.ofBool bit)) >>> 1 = crc.toBitVec >>> 1 := by
    cases bit <;> simp [BitVec.ushiftRight_xor_distrib]
  rw [bitStep, feed, step, hbit, hshift]
  split_ifs <;> rfl

theorem iterate_table0Step_xor (n : ℕ) (a b : UInt32) :
    table0Step^[n] (a ^^^ b) = table0Step^[n] a ^^^ table0Step^[n] b := by
  rw [← UInt32.toBitVec_inj, UInt32.toBitVec_xor]
  simp only [toBitVec_iterate_table0Step]
  exact iterate_step_xor n a.toBitVec b.toBitVec

/-- **Eight steps** are a look into the table and a shift. -/
theorem iterate_table0Step_eight (crc : UInt32) :
    table0Step^[8] crc = table0 crc.toUInt8 ^^^ (crc >>> 8) := by
  rw [← UInt32.toBitVec_inj, UInt32.toBitVec_xor, table0]
  simp only [toBitVec_iterate_table0Step]
  exact iterate_step_split 8 crc.toBitVec

/-- A byte that has been put `n` places up arrives after `n` steps. -/
theorem iterate_table0Step_of_place {byte : UInt8} {x : UInt32} {n : ℕ} (hn : n ≤ 24)
    (hx : x.toBitVec = byte.toBitVec.setWidth 32 <<< n) :
    table0Step^[n] x = byte.toUInt32 := by
  rw [← UInt32.toBitVec_inj, toBitVec_iterate_table0Step, hx]
  refine iterate_step_shiftLeft fun i hi => ?_
  rw [BitVec.getLsbD_setWidth, BitVec.getLsbD_of_ge byte.toBitVec i (by omega), Bool.and_false]

theorem shiftRight_xor_toUInt32 (crc : UInt32) (byte : UInt8) :
    (crc ^^^ byte.toUInt32) >>> 8 = crc >>> 8 := by
  have hbyte : byte.toBitVec.setWidth 32 >>> 8 = 0#32 := by
    refine BitVec.eq_of_getLsbD_eq fun i _ => ?_
    rw [BitVec.getLsbD_ushiftRight, BitVec.getLsbD_setWidth,
      BitVec.getLsbD_of_ge byte.toBitVec (8 + i) (by omega), Bool.and_false]
    simp
  rw [← UInt32.toBitVec_inj]
  change (crc.toBitVec ^^^ byte.toBitVec.setWidth 32) >>> 8 = crc.toBitVec >>> 8
  rw [BitVec.ushiftRight_xor_distrib, hbyte, BitVec.xor_zero]

/-- **A byte step** is eight steps. -/
theorem extendByte_eq (crc : UInt32) (byte : UInt8) :
    extendByte crc byte = table0Step^[8] (crc ^^^ byte.toUInt32) := by
  rw [iterate_table0Step_eight, shiftRight_xor_toUInt32, extendByte, UInt32.toUInt8_xor,
    UInt8.toUInt8_toUInt32]

/-! ### The tables -/

theorem makeTableNext_eq {previous : UInt8 → UInt32} {n : ℕ}
    (h : ∀ i, previous i = table0Step^[n] i.toUInt32) (i : UInt8) :
    makeTableNext previous table0 i = table0Step^[8 + n] i.toUInt32 := by
  rw [Function.iterate_add_apply, ← h, iterate_table0Step_eight, UInt32.xor_comm]
  rfl

theorem table1_eq (i : UInt8) : table1 i = table0Step^[16] i.toUInt32 :=
  makeTableNext_eq (fun _ => rfl) i

theorem table2_eq (i : UInt8) : table2 i = table0Step^[24] i.toUInt32 :=
  makeTableNext_eq table1_eq i

theorem table3_eq (i : UInt8) : table3 i = table0Step^[32] i.toUInt32 :=
  makeTableNext_eq table2_eq i

/-! ### Words -/

theorem shiftRight_shiftRight (c : UInt32) :
    (c >>> 8) >>> 8 = c >>> 16 ∧ (c >>> 16) >>> 8 = c >>> 24 ∧ (c >>> 24) >>> 8 = 0 := by
  simp only [← UInt32.toBitVec_inj]
  refine ⟨(BitVec.shiftRight_add c.toBitVec 8 8).symm,
    (BitVec.shiftRight_add c.toBitVec 16 8).symm, ?_⟩
  exact (BitVec.shiftRight_add c.toBitVec 24 8).symm.trans (BitVec.ushiftRight_eq_zero le_rfl)

/-- **The look-ups of a word** are 32 steps. -/
theorem iterate_table0Step_word (c : UInt32) :
    table3 c.toUInt8 ^^^ table2 (c >>> 8).toUInt8 ^^^ table1 (c >>> 16).toUInt8 ^^^
      table0 (c >>> 24).toUInt8 = table0Step^[32] c := by
  -- eight steps take one byte off the rest
  have hnext : ∀ (n : ℕ) (c : UInt32), table0Step^[n + 8] c =
      table0Step^[n + 8] c.toUInt8.toUInt32 ^^^ table0Step^[n] (c >>> 8) := by
    intro n c
    rw [Function.iterate_add_apply, iterate_table0Step_eight, iterate_table0Step_xor,
      Function.iterate_add_apply _ n 8 c.toUInt8.toUInt32]
    rfl
  obtain ⟨h16, h24, h32⟩ := shiftRight_shiftRight c
  have hlast : table0Step^[8] (c >>> 24) = table0 (c >>> 24).toUInt8 := by
    rw [iterate_table0Step_eight, h32, UInt32.xor_zero]
  rw [hnext 24 c, hnext 16 (c >>> 8), h16, hnext 8 (c >>> 16), h24, hlast, table3_eq, table2_eq,
    table1_eq, UInt32.xor_assoc, UInt32.xor_assoc]

theorem step4_eq (crc : UInt32) (data : Bytes) (offset : ℕ) :
    step4 crc data offset = table0Step^[32] (crc ^^^ fromLeBytes (data.getD offset 0)
      (data.getD (offset + 1) 0) (data.getD (offset + 2) 0) (data.getD (offset + 3) 0)) :=
  iterate_table0Step_word _

/-- The bytes of a word do not overlap. -/
theorem fromLeBytes_eq_xor (b0 b1 b2 b3 : UInt8) :
    fromLeBytes b0 b1 b2 b3 =
      b0.toUInt32 ^^^ (b1.toUInt32 <<< 8) ^^^ (b2.toUInt32 <<< 16) ^^^ (b3.toUInt32 <<< 24) := by
  rw [← UInt32.toBitVec_inj]
  change b0.toBitVec.setWidth 32 ||| (b1.toBitVec.setWidth 32 <<< 8) |||
      (b2.toBitVec.setWidth 32 <<< 16) ||| (b3.toBitVec.setWidth 32 <<< 24) =
    b0.toBitVec.setWidth 32 ^^^ (b1.toBitVec.setWidth 32 <<< 8) ^^^
      (b2.toBitVec.setWidth 32 <<< 16) ^^^ (b3.toBitVec.setWidth 32 <<< 24)
  refine BitVec.eq_of_getLsbD_eq fun i hi => ?_
  simp only [BitVec.getLsbD_or, BitVec.getLsbD_xor, BitVec.getLsbD_shiftLeft,
    BitVec.getLsbD_setWidth]
  -- at each place at most one of the bytes has a bit
  have hbyte : ∀ (b : UInt8) (j : ℕ), 8 ≤ j → b.toBitVec.getLsbD j = false := fun b j hj =>
    BitVec.getLsbD_of_ge b.toBitVec j hj
  by_cases h1 : i < 8
  · simp [h1, show i < 16 by omega, show i < 24 by omega]
  by_cases h2 : i < 16
  · simp [h1, h2, hbyte b0 i (by omega), show i < 24 by omega]
  by_cases h3 : i < 24
  · simp [h1, h2, h3, hbyte b0 i (by omega), hbyte b1 (i - 8) (by omega)]
  · simp [h1, h2, h3, hbyte b0 i (by omega), hbyte b1 (i - 8) (by omega),
      hbyte b2 (i - 16) (by omega)]

/-- A byte may be added `n` steps earlier, `n` places up. -/
theorem iterate_table0Step_add {n : ℕ} {byte placed : UInt32} (h : table0Step^[n] placed = byte)
    (crc : UInt32) :
    table0Step^[8] (table0Step^[n] crc ^^^ byte) = table0Step^[8 + n] (crc ^^^ placed) := by
  rw [Function.iterate_add_apply, iterate_table0Step_xor n, h]

/-- **Four byte steps** are 32 steps from all four bytes. -/
theorem extendByte_four (crc : UInt32) (b0 b1 b2 b3 : UInt8) :
    extendByte (extendByte (extendByte (extendByte crc b0) b1) b2) b3 =
      table0Step^[32] (crc ^^^ fromLeBytes b0 b1 b2 b3) := by
  have h1 : table0Step^[8] (b1.toUInt32 <<< 8) = b1.toUInt32 :=
    iterate_table0Step_of_place (by decide) rfl
  have h2 : table0Step^[16] (b2.toUInt32 <<< 16) = b2.toUInt32 :=
    iterate_table0Step_of_place (by decide) rfl
  have h3 : table0Step^[24] (b3.toUInt32 <<< 24) = b3.toUInt32 :=
    iterate_table0Step_of_place (by decide) rfl
  simp only [extendByte_eq]
  rw [iterate_table0Step_add h1, iterate_table0Step_add h2, iterate_table0Step_add h3,
    fromLeBytes_eq_xor]
  simp only [UInt32.xor_assoc]

/-! ### The loops -/

variable {data : Bytes}

theorem drop_eq_getD_cons {offset : ℕ} (h : offset < data.length) :
    data.drop offset = data.getD offset 0 :: data.drop (offset + 1) := by
  rw [drop_eq_getElem_cons h, getD_eq_getElem _ _ h]

/-- A piece of the data has been taken into the checksum. -/
def Takes (data : Bytes) (size : ℕ) (step : UInt32 → ℕ → UInt32) : Prop :=
  ∀ crc offset, offset + size ≤ data.length →
    (data.drop (offset + size)).foldl extendByte (step crc offset) =
      (data.drop offset).foldl extendByte crc

theorem takes_extendByte (data : Bytes) :
    Takes data 1 fun crc offset => extendByte crc (data.getD offset 0) := by
  intro crc offset h
  rw [drop_eq_getD_cons h]
  rfl

theorem takes_step4 (data : Bytes) : Takes data 4 fun crc offset => step4 crc data offset := by
  intro crc offset h
  beta_reduce
  rw [step4_eq, ← extendByte_four, drop_eq_getD_cons (show offset < data.length by omega),
    drop_eq_getD_cons (show offset + 1 < data.length by omega),
    drop_eq_getD_cons (show offset + 1 + 1 < data.length by omega),
    drop_eq_getD_cons (show offset + 1 + 1 + 1 < data.length by omega)]
  simp only [foldl_cons, Nat.add_assoc, Nat.reduceAdd]

/-- What a loop leaves for the next one. -/
theorem foldl_pieces {size : ℕ} {step : UInt32 → ℕ → UInt32} (h : Takes data size step)
    (crc : UInt32) (offset : ℕ) :
    (data.drop (pieces size step data.length crc offset).2).foldl extendByte
      (pieces size step data.length crc offset).1 = (data.drop offset).foldl extendByte crc := by
  fun_induction pieces size step data.length crc offset with
  | case1 crc offset hmore ih => rw [ih, h crc offset hmore.2]
  | case2 => rfl

theorem lt_pieces {size : ℕ} (hsize : 0 < size) (step : UInt32 → ℕ → UInt32) (length : ℕ)
    (crc : UInt32) (offset : ℕ) :
    length < (pieces size step length crc offset).2 + size := by
  fun_induction pieces size step length crc offset with
  | case1 crc offset hmore ih => exact ih
  | case2 crc offset hdone => exact not_le.mp fun hle => hdone ⟨hsize, hle⟩

/-- Four words are taken at a time. -/
theorem takes_sixteen (data : Bytes) : Takes data 16 fun crc offset =>
    step4 (step4 (step4 (step4 crc data offset) data (offset + 4)) data (offset + 8)) data
      (offset + 12) := by
  intro crc offset h
  rw [← takes_step4 data crc offset (by omega), ← takes_step4 data _ (offset + 4) (by omega),
    ← takes_step4 data _ (offset + 4 + 4) (by omega),
    ← takes_step4 data _ (offset + 4 + 4 + 4) (by omega)]

/-- **Slicing computes the same checksum as single bytes.** -/
theorem extendSoftware_eq_extend (initCrc : UInt32) (data : Bytes) :
    extendSoftware initCrc data = extend initCrc data := by
  have h16 := foldl_pieces (takes_sixteen data) (initCrc ^^^ 0xffffffff) 0
  rw [extendSoftware, extend]
  generalize pieces 16 _ data.length (initCrc ^^^ 0xffffffff) 0 = r16 at h16 ⊢
  obtain ⟨crc16, offset16⟩ := r16
  have h4 := foldl_pieces (takes_step4 data) crc16 offset16
  dsimp only
  generalize pieces 4 _ data.length crc16 offset16 = r4 at h4 ⊢
  obtain ⟨crc4, offset4⟩ := r4
  have h1 := foldl_pieces (takes_extendByte data) crc4 offset4
  have hend := lt_pieces Nat.one_pos (fun crc offset => extendByte crc (data.getD offset 0))
    data.length crc4 offset4
  rw [drop_eq_nil_of_le (Nat.lt_succ_iff.mp hend), foldl_nil, h4, h16, drop_zero] at h1
  exact congrArg (· ^^^ 0xffffffff) h1

/-! ### Bits -/

theorem foldl_bits (crc : UInt32) (byte : UInt8) :
    (bits byte).foldl bitStep crc = extendByte crc byte := by
  rw [extendByte_eq, ← UInt32.toBitVec_inj, toBitVec_iterate_table0Step]
  have hfeed := @foldl_feed 32 poly.toBitVec 8 8 byte.toBitVec (by decide) crc.toBitVec
  rw [BitVec.setWidth_eq] at hfeed
  rw [← foldl_map, ← bits] at hfeed
  -- the bits go into the word as they go into the register
  refine Eq.trans ?_ hfeed
  exact (foldl_hom UInt32.toBitVec fun crc bit => (toBitVec_bitStep crc bit).symm).symm

/-- **The portable checksum**: slicing computes the reflected CRC, and a checksum is continued
piece by piece. -/
theorem extendSoftware_eq_bitwise (initCrc : UInt32) (data more : Bytes) :
    extendSoftware initCrc data = bitwise initCrc data ∧
      extendSoftware (extendSoftware initCrc data) more =
        extendSoftware initCrc (data ++ more) := by
  refine ⟨?_, ?_⟩
  · have hbits : ∀ crc, (data.flatMap bits).foldl bitStep crc = data.foldl extendByte crc := by
      induction data with
      | nil => exact fun _ => rfl
      | cons byte data ih =>
        intro crc
        rw [flatMap_cons, foldl_append, foldl_bits, ih]
        rfl
    rw [extendSoftware_eq_extend, extend, bitwise, hbits]
  · simp only [extendSoftware_eq_extend, extend_append]

end PulsearcDb.Crc32c
