import PulsearcDb.Env
import PulsearcDb.Log.Writer

/-!
# The record log: reading

The read side of `log/log.rs`. `LogReader` reads a log held in memory, `LogSequentialReader` reads
it from a file one block at a time. Both differ only in how they find the next physical record;
the assembly of fragments into records is the same code, stated once for any `PhysicalReader`,
which carries the reason why the loops end: a fragment that is found uses up bytes.

`forEach` is the loop of the two recovery paths, `while let Some(record) = reader.read_record()`,
with a body that may fail; it returns the state that has been reached and the error that ended it.
-/

namespace PulsearcDb

open Log

/-! ### Assembling records -/

/-- A source of physical records, each of which uses up bytes of the log. -/
structure PhysicalReader (ρ : Type) where
  readPhysical : ρ → Result (Option (UInt8 × Bytes)) × ρ
  remaining : ρ → ℕ
  remaining_lt : ∀ {r r' fragment}, readPhysical r = (.ok (some fragment), r') →
    remaining r' < remaining r

namespace PhysicalReader

/-- What one more fragment makes of the fragments before it. -/
inductive Assembled
  | record (data : Bytes)
  | pending (scratch : Bytes)

/-- The branches of `read_record` on the kind of a fragment. -/
def assemble (inFragmented : Bool) (scratch : Bytes) (kind : UInt8) (fragment : Bytes) :
    Result Assembled :=
  if kind = LogRecordHeader.kindFull then
    if inFragmented then .error (Status.corruption "LogReader: full inside fragmented record")
    else .ok (.record fragment)
  else if kind = LogRecordHeader.kindFirst then
    if inFragmented then .error (Status.corruption "LogReader: first inside fragmented record")
    else .ok (.pending fragment)
  else if kind = LogRecordHeader.kindMiddle then
    if inFragmented then .ok (.pending (scratch ++ fragment))
    else .error (Status.corruption "LogReader: middle outside fragmented record")
  else if kind = LogRecordHeader.kindLast then
    if inFragmented then .ok (.record (scratch ++ fragment))
    else .error (Status.corruption "LogReader: last outside fragmented record")
  else .error (Status.corruption s!"LogReader: unknown record kind {kind}")

variable {ρ σ : Type} (R : PhysicalReader ρ)

/-- Put the fragments of a record together. -/
def readRecordLoop (inFragmented : Bool) (scratch : Bytes) (r : ρ) : Result (Option Bytes) × ρ :=
  match _h : R.readPhysical r with
  | (.error e, r') => (.error e, r')
  | (.ok none, r') =>
    if inFragmented then
      (.error (Status.corruption "LogReader: truncated fragmented record"), r')
    else (.ok none, r')
  | (.ok (some (kind, fragment)), r') =>
    match assemble inFragmented scratch kind fragment with
    | .error e => (.error e, r')
    | .ok (.record data) => (.ok (some data), r')
    | .ok (.pending scratch') => readRecordLoop true scratch' r'
termination_by R.remaining r
decreasing_by exact R.remaining_lt ‹_›

/-- `read_record` over any source of fragments. -/
def readRecord (r : ρ) : Result (Option Bytes) × ρ := R.readRecordLoop false [] r

/-- The results of the first `n` calls of `read_record`, which go on after an error or the end. -/
def firstResults : ℕ → ρ → List (Result (Option Bytes))
  | 0, _ => []
  | n + 1, r => (R.readRecord r).1 :: firstResults n (R.readRecord r).2

section Steps

variable {R} {inFragmented : Bool} {scratch data scratch' : Bytes} {r r' : ρ}
  {kind : UInt8} {fragment : Bytes} {e : Status}

section

variable (hread : R.readPhysical r = (.ok (some (kind, fragment)), r'))
include hread

theorem readRecordLoop_of_record
    (h : assemble inFragmented scratch kind fragment = .ok (.record data)) :
    R.readRecordLoop inFragmented scratch r = (.ok (some data), r') := by
  rw [readRecordLoop]
  split <;> simp_all

theorem readRecordLoop_of_pending
    (h : assemble inFragmented scratch kind fragment = .ok (.pending scratch')) :
    R.readRecordLoop inFragmented scratch r = R.readRecordLoop true scratch' r' := by
  rw [readRecordLoop]
  split <;> simp_all

theorem readRecordLoop_of_assemble_error
    (h : assemble inFragmented scratch kind fragment = .error e) :
    R.readRecordLoop inFragmented scratch r = (.error e, r') := by
  rw [readRecordLoop]
  split <;> simp_all

end

theorem readRecordLoop_eq_of_error (hread : R.readPhysical r = (.error e, r')) :
    R.readRecordLoop inFragmented scratch r = (.error e, r') := by
  rw [readRecordLoop]
  split <;> simp_all

theorem readRecordLoop_eq_of_none (hread : R.readPhysical r = (.ok none, r')) :
    R.readRecordLoop inFragmented scratch r =
      if inFragmented then
        (.error (Status.corruption "LogReader: truncated fragmented record"), r')
      else (.ok none, r') := by
  rw [readRecordLoop]
  split <;> simp_all

theorem readRecordLoop_of_error (hread : (R.readPhysical r).1 = .error e) :
    (R.readRecordLoop inFragmented scratch r).1 = .error e := by
  rw [readRecordLoop_eq_of_error (Prod.ext hread rfl)]

theorem readRecordLoop_of_none (hread : (R.readPhysical r).1 = .ok none) :
    (R.readRecordLoop inFragmented scratch r).1 =
      if inFragmented then .error (Status.corruption "LogReader: truncated fragmented record")
      else .ok none := by
  rw [readRecordLoop_eq_of_none (Prod.ext hread rfl)]
  split <;> rfl

end Steps

private theorem remaining_lt_of_readRecordLoop {inFragmented : Bool} {scratch data : Bytes}
    {r r' : ρ} (h : R.readRecordLoop inFragmented scratch r = (.ok (some data), r')) :
    R.remaining r' < R.remaining r := by
  fun_induction readRecordLoop R inFragmented scratch r with
  | case1 => simp at h
  | case2 => simp at h
  | case3 => simp at h
  | case4 => simp at h
  | case5 inFragmented scratch r kind fragment r₁ hr data' ha =>
    obtain rfl : r₁ = r' := (Prod.mk.inj h).2
    exact R.remaining_lt hr
  | case6 inFragmented scratch r kind fragment r₁ hr scratch' ha ih =>
    exact (ih h).trans (R.remaining_lt hr)

theorem remaining_lt_of_readRecord {data : Bytes} {r r' : ρ}
    (h : R.readRecord r = (.ok (some data), r')) : R.remaining r' < R.remaining r :=
  R.remaining_lt_of_readRecordLoop h

/-- Run `body` on the records that are read, until the end of the log or the first error. -/
def forEach (body : σ → Bytes → Outcome σ) (st : σ) (r : ρ) : Outcome σ :=
  match _h : R.readRecord r with
  | (.error e, _) => (.error e, st)
  | (.ok none, _) => (.ok (), st)
  | (.ok (some record), r') =>
    match body st record with
    | (.error e, st') => (.error e, st')
    | (.ok _, st') => forEach body st' r'
termination_by R.remaining r
decreasing_by exact R.remaining_lt_of_readRecord ‹_›

section Steps

variable {R} {body : σ → Bytes → Outcome σ} {st : σ} {r r' : ρ}

theorem forEach_of_record {record : Bytes} (h : R.readRecord r = (.ok (some record), r')) :
    R.forEach body st r = (body st record).andThen fun st' => R.forEach body st' r' := by
  rw [forEach]
  split
  · simp_all
  · simp_all
  · rename_i record₁ r₁ hread
    obtain ⟨hrec, rfl⟩ := Prod.mk.inj (h.symm.trans hread)
    obtain rfl : record = record₁ := by simpa using hrec
    rcases body st record with ⟨e | _, st'⟩ <;> rfl

theorem forEach_of_none (h : (R.readRecord r).1 = .ok none) :
    R.forEach body st r = (.ok (), st) := by
  rw [forEach]
  split <;> simp_all

theorem forEach_of_error {e : Status} (h : (R.readRecord r).1 = .error e) :
    R.forEach body st r = (.error e, st) := by
  rw [forEach]
  split <;> simp_all

/-- What the body keeps in every outcome holds at the end of the loop, with or without an error. -/
theorem forEach_preserves {P : σ → Prop} (hbody : ∀ st record, P st → P (body st record).2)
    (h : P st) : P (R.forEach body st r).2 := by
  fun_induction PhysicalReader.forEach R body st r with
  | case1 => exact h
  | case2 => exact h
  | case3 st r record r₁ _ e st' hst =>
    have := hbody st record h
    rwa [hst] at this
  | case4 st r record r₁ _ u st' hst ih =>
    have := hbody st record h
    rw [hst] at this
    exact ih this

end Steps

/-! #### Simulation -/

/-- Related readers find the same physical records as long as they find any. -/
def Simulates {ρ ρ' : Type} (R : PhysicalReader ρ) (R' : PhysicalReader ρ') (T : ρ → ρ' → Prop) :
    Prop :=
  ∀ r r', T r r' → (R.readPhysical r).1 = (R'.readPhysical r').1 ∧
    ∀ fragment, (R.readPhysical r).1 = .ok (some fragment) →
      T (R.readPhysical r).2 (R'.readPhysical r').2

section Simulation

variable {ρ' : Type} {R} {R' : PhysicalReader ρ'} {T : ρ → ρ' → Prop}

/-- Readers that find the same, and stay related where `keeps` holds or a record was found. -/
private theorem readRecordLoop_related {keeps : Prop}
    (hT : ∀ r r', T r r' → (R.readPhysical r).1 = (R'.readPhysical r').1 ∧
      ((keeps ∨ ∃ fragment, (R.readPhysical r).1 = .ok (some fragment)) →
        T (R.readPhysical r).2 (R'.readPhysical r').2))
    {inFragmented : Bool} {scratch : Bytes} {r : ρ} {r' : ρ'} (h : T r r') :
    (R.readRecordLoop inFragmented scratch r).1 = (R'.readRecordLoop inFragmented scratch r').1 ∧
      ((keeps ∨ ∃ data, (R.readRecordLoop inFragmented scratch r).1 = .ok (some data)) →
        T (R.readRecordLoop inFragmented scratch r).2
          (R'.readRecordLoop inFragmented scratch r').2) := by
  have hstep : ∀ {r r' result r₁}, T r r' → R.readPhysical r = (result, r₁) →
      ∃ r₁', R'.readPhysical r' = (result, r₁') ∧
        ((keeps ∨ ∃ fragment, result = .ok (some fragment)) → T r₁ r₁') := by
    intro r r' result r₁ h hread
    obtain ⟨hres, hnext⟩ := hT r r' h
    rw [hread] at hres hnext
    exact ⟨_, Prod.ext hres.symm rfl, hnext⟩
  fun_induction PhysicalReader.readRecordLoop R inFragmented scratch r generalizing r' with
  | case1 inFragmented scratch r e r₁ hread =>
    obtain ⟨r₁', hread', h₁⟩ := hstep h hread
    rw [readRecordLoop_eq_of_error hread']
    exact ⟨rfl, fun hk => h₁ (.inl (by simpa using hk))⟩
  | case2 scratch r r₁ hread =>
    obtain ⟨r₁', hread', h₁⟩ := hstep h hread
    rw [readRecordLoop_eq_of_none hread', if_pos rfl]
    exact ⟨rfl, fun hk => h₁ (.inl (by simpa using hk))⟩
  | case3 inFragmented scratch r r₁ hread hfalse =>
    obtain ⟨r₁', hread', h₁⟩ := hstep h hread
    rw [readRecordLoop_eq_of_none hread', if_neg hfalse]
    exact ⟨rfl, fun hk => h₁ (.inl (by simpa using hk))⟩
  | case4 inFragmented scratch r kind fragment r₁ hread e ha =>
    obtain ⟨r₁', hread', h₁⟩ := hstep h hread
    rw [readRecordLoop_of_assemble_error hread' ha]
    exact ⟨rfl, fun _ => h₁ (.inr ⟨_, rfl⟩)⟩
  | case5 inFragmented scratch r kind fragment r₁ hread data ha =>
    obtain ⟨r₁', hread', h₁⟩ := hstep h hread
    rw [readRecordLoop_of_record hread' ha]
    exact ⟨rfl, fun _ => h₁ (.inr ⟨_, rfl⟩)⟩
  | case6 inFragmented scratch r kind fragment r₁ hread scratch' ha ih =>
    obtain ⟨r₁', hread', h₁⟩ := hstep h hread
    rw [readRecordLoop_of_pending hread' ha]
    exact ih (h₁ (.inr ⟨_, rfl⟩))

theorem Simulates.readRecord (hT : R.Simulates R' T) {r : ρ} {r' : ρ'} (h : T r r') :
    (R.readRecord r).1 = (R'.readRecord r').1 ∧
      ∀ data, (R.readRecord r).1 = .ok (some data) → T (R.readRecord r).2 (R'.readRecord r').2 := by
  have hloop := @readRecordLoop_related _ R _ R' T False
    (fun r r' h => ⟨(hT r r' h).1, by simpa using (hT r r' h).2⟩) false [] r r' h
  exact ⟨hloop.1, fun data hdata => hloop.2 (.inr ⟨data, hdata⟩)⟩

/-- **Simulation.** Related readers run the recovery loop alike. -/
theorem Simulates.forEach (hT : R.Simulates R' T) {body : σ → Bytes → Outcome σ} {st : σ} {r : ρ}
    {r' : ρ'} (h : T r r') : R.forEach body st r = R'.forEach body st r' := by
  have hsame := hT.readRecord h
  fun_induction PhysicalReader.forEach R body st r generalizing r' with
  | case1 st r e r₁ hread =>
    rw [hread] at hsame
    exact (forEach_of_error hsame.1.symm).symm
  | case2 st r r₁ hread =>
    rw [hread] at hsame
    exact (forEach_of_none hsame.1.symm).symm
  | case3 st r record r₁ hread e st' hbody =>
    rw [hread] at hsame
    rw [forEach_of_record (Prod.ext hsame.1.symm rfl), hbody, Outcome.andThen_error]
  | case4 st r record r₁ hread u st' hbody ih =>
    rw [hread] at hsame
    have hnext := hsame.2 record rfl
    rw [forEach_of_record (Prod.ext hsame.1.symm rfl), hbody]
    exact ih hnext (hT.readRecord hnext)

/-- Related readers find the same and stay related, whatever they find. -/
def Bisimulates (R : PhysicalReader ρ) (R' : PhysicalReader ρ') (T : ρ → ρ' → Prop) : Prop :=
  ∀ r r', T r r' → (R.readPhysical r).1 = (R'.readPhysical r').1 ∧
    T (R.readPhysical r).2 (R'.readPhysical r').2

theorem Bisimulates.simulates (hT : R.Bisimulates R' T) : R.Simulates R' T := fun r r' h =>
  ⟨(hT r r' h).1, fun _ _ => (hT r r' h).2⟩

theorem Bisimulates.readRecordLoop (hT : R.Bisimulates R' T) {inFragmented : Bool}
    {scratch : Bytes} {r : ρ} {r' : ρ'} (h : T r r') :
    (R.readRecordLoop inFragmented scratch r).1 = (R'.readRecordLoop inFragmented scratch r').1 ∧
      T (R.readRecordLoop inFragmented scratch r).2
        (R'.readRecordLoop inFragmented scratch r').2 := by
  have hloop := @readRecordLoop_related _ R _ R' T True
    (fun r r' h => ⟨(hT r r' h).1, fun _ => (hT r r' h).2⟩) inFragmented scratch r r' h
  exact ⟨hloop.1, hloop.2 (.inl trivial)⟩

/-- **Bisimulation.** Related readers return the same, call after call. -/
theorem Bisimulates.firstResults (hT : R.Bisimulates R' T) (n : ℕ) {r : ρ} {r' : ρ'} (h : T r r') :
    R.firstResults n r = R'.firstResults n r' := by
  induction n generalizing r r' with
  | zero => rfl
  | succ n ih =>
    obtain ⟨hres, hnext⟩ := @Bisimulates.readRecordLoop _ R _ R' T hT false [] r r' h
    rw [PhysicalReader.firstResults, PhysicalReader.firstResults]
    exact congrArg₂ List.cons hres (ih hnext)

end Simulation

end PhysicalReader

/-! ### Physical records -/

/-- The checks of `read_physical` on a header at block offset `offset` with the bytes `rest` at and
after it. -/
def checkPhysical (offset : ℕ) (rest : Bytes) : Result (UInt8 × Bytes) := do
  let (header, _) ← LogRecordHeader.decodeFrom (rest.take headerSize)
  if blockSize - offset - headerSize < header.length then
    .error (Status.corruption "LogReader: record extends past block end")
  else if rest.length < headerSize + header.length then
    .error (Status.corruption "LogReader: truncated payload")
  else
    let payload := (rest.drop headerSize).take header.length
    if recordCrc header.kind payload ≠ header.crc then
      .error (Status.corruption "LogReader: bad record CRC")
    else return (header.kind, payload)

/-- `LogReader`: the log and the position in it. -/
structure LogReader where
  bytes : Bytes
  cursor : ℕ := 0
  deriving DecidableEq, Repr

namespace LogReader

/-- The next block boundary is not in the trailer of a block. -/
theorem add_leftover_mod (cursor : ℕ) :
    (cursor + (blockSize - cursor % blockSize)) % blockSize = 0 := by
  have hlt := Nat.mod_lt cursor (show 0 < blockSize by decide)
  have hdiv := Nat.mod_add_div cursor blockSize
  have heq : cursor + (blockSize - cursor % blockSize) = blockSize * (cursor / blockSize + 1) := by
    rw [Nat.mul_add, Nat.mul_one]
    omega
  rw [heq, Nat.mul_mod_right]

/-- The measure of the loop of `read_physical`: a skipped trailer may lie past the last byte, but
no second trailer follows it. -/
def fuel (r : LogReader) : ℕ :=
  2 * (r.bytes.length - r.cursor) + if blockSize - r.cursor % blockSize < headerSize then 1 else 0

private theorem fuel_skip {r : LogReader} (h : blockSize - r.cursor % blockSize < headerSize) :
    fuel { r with cursor := r.cursor + (blockSize - r.cursor % blockSize) } < r.fuel := by
  have hnext : ¬ blockSize - (r.cursor + (blockSize - r.cursor % blockSize)) % blockSize <
      headerSize := by
    rw [add_leftover_mod]
    decide
  rw [fuel, fuel, if_pos h, if_neg hnext]
  simp only
  omega

private theorem fuel_advance {r : LogReader} {n : ℕ} (h : r.cursor < r.bytes.length) (hn : 0 < n) :
    fuel { r with cursor := r.cursor + n } < r.fuel := by
  rw [fuel, fuel]
  split_ifs <;> simp only <;> omega

/-- The next fragment of a log in memory. -/
def readPhysical (r : LogReader) : Result (Option (UInt8 × Bytes)) × LogReader :=
  let blockOffset := r.cursor % blockSize
  if blockSize - blockOffset < headerSize then
    readPhysical { r with cursor := r.cursor + (blockSize - blockOffset) }
  else if r.bytes.length < r.cursor + headerSize then (.ok none, r)
  else
    match checkPhysical blockOffset (r.bytes.drop r.cursor) with
    | .error e => (.error e, r)
    | .ok (kind, payload) =>
      let r' := { r with cursor := r.cursor + (headerSize + payload.length) }
      -- a zero header is space that was allocated and not written
      if kind = LogRecordHeader.kindZero ∧ payload.length = 0 then readPhysical r'
      else (.ok (some (kind, payload)), r')
termination_by r.fuel
decreasing_by
  · exact fuel_skip ‹_›
  · exact fuel_advance (by simp only [headerSize, LogRecordHeader.size] at *; omega)
      (by simp only [headerSize, LogRecordHeader.size]; omega)

theorem remaining_lt_of_readPhysical {r r' : LogReader} {fragment : UInt8 × Bytes}
    (h : r.readPhysical = (.ok (some fragment), r')) :
    r'.bytes.length - r'.cursor < r.bytes.length - r.cursor := by
  fun_induction readPhysical r with
  | case1 r off hskip ih =>
    refine (ih h).trans_le ?_
    simp only
    omega
  | case2 => simp at h
  | case3 => simp at h
  | case4 r off htrailer hbytes kind payload hcheck r₁ hzero ih =>
    refine (ih h).trans_le ?_
    simp only [r₁]
    omega
  | case5 r off htrailer hbytes kind payload hcheck r₁ hzero =>
    obtain rfl : r₁ = r' := (Prod.mk.inj h).2
    simp only [r₁, headerSize, LogRecordHeader.size] at *
    omega

/-- The in-memory reader as a source of physical records. -/
def source : PhysicalReader LogReader where
  readPhysical := readPhysical
  remaining r := r.bytes.length - r.cursor
  remaining_lt := remaining_lt_of_readPhysical

/-- The next record of a log in memory. -/
def readRecord (r : LogReader) : Result (Option Bytes) × LogReader := source.readRecord r

end LogReader

/-! ### Reading block by block -/

/-- `LogSequentialReader`; `file` is what the sequential file has not delivered yet. -/
structure LogSequentialReader where
  file : Bytes
  block : Bytes := []
  blockOffset : ℕ := 0
  eof : Bool := false
  deriving DecidableEq, Repr

namespace LogSequentialReader

/-- Read the next block of the file. -/
def fillBlock (r : LogSequentialReader) : LogSequentialReader :=
  if r.eof then r
  else
    { file := r.file.drop blockSize, block := r.file.take blockSize, blockOffset := 0,
      eof := (r.file.take blockSize).isEmpty }

/-- The reader with a block that has bytes left, or at the end of the file. -/
def loadBlock (r : LogSequentialReader) : LogSequentialReader :=
  if r.block.length ≤ r.blockOffset then r.fillBlock else r

/-- The bytes that have not been read. -/
def remaining (r : LogSequentialReader) : ℕ := r.file.length + (r.block.length - r.blockOffset)

theorem remaining_loadBlock_le (r : LogSequentialReader) : r.loadBlock.remaining ≤ r.remaining := by
  unfold loadBlock fillBlock
  split_ifs with hblk heof
  · exact le_rfl
  · simp only [remaining, List.length_drop, List.length_take]
    omega
  · exact le_rfl

theorem blockOffset_loadBlock_lt {r : LogSequentialReader}
    (h : ¬ (r.block.length ≤ r.blockOffset ∧ r.loadBlock.eof)) :
    r.loadBlock.blockOffset < r.loadBlock.block.length := by
  unfold loadBlock fillBlock at *
  split_ifs at h ⊢ with hblk heof
  · exact absurd ⟨hblk, heof⟩ h
  · rw [List.isEmpty_iff] at h
    exact List.length_pos_iff.mpr fun hnil => h ⟨hblk, hnil⟩
  · exact not_le.mp hblk

/-- The next fragment of a log file. -/
def readPhysical (r : LogSequentialReader) :
    Result (Option (UInt8 × Bytes)) × LogSequentialReader :=
  let r' := r.loadBlock
  if r.block.length ≤ r.blockOffset ∧ r'.eof then (.ok none, r')
  else if r'.block.length - r'.blockOffset < headerSize then
    if r'.block.length < blockSize then (.ok none, { r' with eof := true })
    else readPhysical { r' with blockOffset := r'.block.length }
  else
    match checkPhysical r'.blockOffset (r'.block.drop r'.blockOffset) with
    | .error e => (.error e, r')
    | .ok (kind, payload) =>
      let r'' := { r' with blockOffset := r'.blockOffset + (headerSize + payload.length) }
      if kind = LogRecordHeader.kindZero ∧ payload.length = 0 then readPhysical r''
      else (.ok (some (kind, payload)), r'')
termination_by r.remaining
decreasing_by
  · have hlt : r'.blockOffset < r'.block.length := blockOffset_loadBlock_lt ‹_›
    refine lt_of_lt_of_le ?_ r.remaining_loadBlock_le
    simp only [remaining, r'] at *
    omega
  · refine lt_of_lt_of_le ?_ r.remaining_loadBlock_le
    simp only [remaining, r', headerSize, LogRecordHeader.size] at *
    omega

theorem remaining_lt_of_readPhysical {r s : LogSequentialReader} {fragment : UInt8 × Bytes}
    (h : r.readPhysical = (.ok (some fragment), s)) : s.remaining < r.remaining := by
  fun_induction readPhysical r with
  | case1 => simp at h
  | case2 => simp at h
  | case3 r r' hend hleft hfull ih =>
    refine (ih h).trans_le (le_trans ?_ r.remaining_loadBlock_le)
    simp only [remaining, r']
    omega
  | case4 => simp at h
  | case5 r r' hend hleft kind payload hcheck r'' hzero ih =>
    refine (ih h).trans_le (le_trans ?_ r.remaining_loadBlock_le)
    simp only [remaining, r', r'']
    omega
  | case6 r r' hend hleft kind payload hcheck r'' hzero =>
    obtain rfl : r'' = s := (Prod.mk.inj h).2
    refine lt_of_lt_of_le ?_ r.remaining_loadBlock_le
    simp only [remaining, r', r'', headerSize, LogRecordHeader.size] at *
    omega

/-- The file reader as a source of physical records. -/
def source : PhysicalReader LogSequentialReader where
  readPhysical := readPhysical
  remaining := remaining
  remaining_lt := remaining_lt_of_readPhysical

/-- The next record of a log file. -/
def readRecord (r : LogSequentialReader) : Result (Option Bytes) × LogSequentialReader :=
  source.readRecord r

end LogSequentialReader
end PulsearcDb
