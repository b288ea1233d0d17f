import PulsearcDb.Format

/-!
# Version edits

`version_set/version_edit.rs` and `version_set/file_meta_data.rs`: the record that the manifest
stores for every change of the file set. An edit is encoded as tagged fields, the absent ones left
out. The decoder reads fields in any order until the input is used up; a scalar field overwrites
what was read before it and a list field appends, so `decodeField` takes the edit read so far.

`decodeFrom_encode` is the round trip: what `encode` writes for an edit whose numbers and strings
fit their machine types is decoded to the same edit.
-/

namespace PulsearcDb

open List

/-- One table file of a version; the bounds are internal keys. -/
structure FileMetaData where
  number : ℕ
  fileSize : ℕ
  smallest : Bytes
  largest : Bytes
  deriving DecidableEq, Repr

/-- Where the next compaction of a level starts. -/
structure CompactPointer where
  level : ℕ
  key : Bytes
  deriving DecidableEq, Repr

/-- A file that leaves a level. -/
structure DeletedFile where
  level : ℕ
  number : ℕ
  deriving DecidableEq, Repr

/-- A file that joins a level. -/
structure NewFile where
  level : ℕ
  file : FileMetaData
  deriving DecidableEq, Repr

/-- `struct VersionEdit`; the defaults are those of `VersionEdit::default()`. -/
structure VersionEdit where
  comparator : Option Bytes := none
  logNumber : Option ℕ := none
  prevLogNumber : Option ℕ := none
  nextFileNumber : Option ℕ := none
  lastSequence : Option ℕ := none
  compactPointers : List CompactPointer := []
  deletedFiles : List DeletedFile := []
  newFiles : List NewFile := []
  deriving DecidableEq, Repr

/-! ### Encoding -/

namespace FileMetaData

/-- Number, size and bounds. -/
def encode (f : FileMetaData) : Bytes :=
  putVarint64 f.number ++ (putVarint64 f.fileSize ++
    (putLengthPrefixedSlice f.smallest ++ putLengthPrefixedSlice f.largest))

/-- Read the metadata through a cursor. -/
def decodeFrom (input : Bytes) : Result (FileMetaData × Bytes) := do
  let (number, input) ← orCorruption "FileMetaData: missing number" (getVarint64 input)
  let (fileSize, input) ← orCorruption "FileMetaData: missing file_size" (getVarint64 input)
  let (smallest, input) ←
    orCorruption "FileMetaData: missing smallest" (getLengthPrefixedSlice input)
  let (largest, input) ←
    orCorruption "FileMetaData: missing largest" (getLengthPrefixedSlice input)
  return (⟨number, fileSize, smallest, largest⟩, input)

end FileMetaData

namespace VersionEdit

/-- A tagged scalar field, nothing when it is absent. -/
def encodeNumber (tag : ℕ) : Option ℕ → Bytes
  | some number => putVarint32 tag ++ putVarint64 number
  | none => []

/-- Tag 1 with the name. -/
def encodeComparator : Option Bytes → Bytes
  | some name => putVarint32 1 ++ putLengthPrefixedSlice name
  | none => []

/-- Tag 5 with the level and the key. -/
def encodeCompactPointer (item : CompactPointer) : Bytes :=
  putVarint32 5 ++ (putVarint32 item.level ++ putLengthPrefixedSlice item.key)

/-- Tag 6 with the level and the number. -/
def encodeDeletedFile (item : DeletedFile) : Bytes :=
  putVarint32 6 ++ (putVarint32 item.level ++ putVarint64 item.number)

/-- Tag 7 with the level and the metadata. -/
def encodeNewFile (item : NewFile) : Bytes :=
  putVarint32 7 ++ (putVarint32 item.level ++ item.file.encode)

/-- The fields that are set, in this order. -/
def encode (e : VersionEdit) : Bytes :=
  encodeComparator e.comparator ++ (encodeNumber 2 e.logNumber ++
    (encodeNumber 9 e.prevLogNumber ++ (encodeNumber 3 e.nextFileNumber ++
    (encodeNumber 4 e.lastSequence ++ (e.compactPointers.flatMap encodeCompactPointer ++
    (e.deletedFiles.flatMap encodeDeletedFile ++ e.newFiles.flatMap encodeNewFile))))))

/-! ### Decoding -/

/-- A level, which must exist. -/
def decodeLevel (input : Bytes) : Result (ℕ × Bytes) := do
  let (level, input) ← orCorruption "VersionEdit: missing level" (getVarint32 input)
  if numLevels ≤ level then .error (Status.corruption "VersionEdit: level out of range")
  else return (level, input)

/-- One turn of the loop of `VersionEdit::decode_from`. -/
def decodeField (e : VersionEdit) (input : Bytes) : Result (VersionEdit × Bytes) := do
  let (tag, input) ← orCorruption "VersionEdit: missing tag" (getVarint32 input)
  match tag with
  | 1 =>
    let (name, input) ← orCorruption "VersionEdit: missing name" (getLengthPrefixedSlice input)
    return ({ e with comparator := some name }, input)
  | 2 =>
    let (number, input) ← orCorruption "VersionEdit: missing number" (getVarint64 input)
    return ({ e with logNumber := some number }, input)
  | 9 =>
    let (number, input) ← orCorruption "VersionEdit: missing number" (getVarint64 input)
    return ({ e with prevLogNumber := some number }, input)
  | 3 =>
    let (number, input) ← orCorruption "VersionEdit: missing number" (getVarint64 input)
    return ({ e with nextFileNumber := some number }, input)
  | 4 =>
    let (seq, input) ← orCorruption "VersionEdit: missing seq" (getVarint64 input)
    return ({ e with lastSequence := some seq }, input)
  | 5 =>
    let (level, input) ← decodeLevel input
    let (key, input) ← orCorruption "VersionEdit: missing key" (getLengthPrefixedSlice input)
    return ({ e with compactPointers := e.compactPointers ++ [⟨level, key⟩] }, input)
  | 6 =>
    let (level, input) ← decodeLevel input
    let (number, input) ← orCorruption "VersionEdit: missing number" (getVarint64 input)
    return ({ e with deletedFiles := e.deletedFiles ++ [⟨level, number⟩] }, input)
  | 7 =>
    let (level, input) ← decodeLevel input
    let (file, input) ← FileMetaData.decodeFrom input
    return ({ e with newFiles := e.newFiles ++ [⟨level, file⟩] }, input)
  | other => .error (Status.corruption s!"VersionEdit: unknown tag {other}")

variable {input rest : Bytes}

private theorem length_lt_of_decodeLevel {level : ℕ} (h : decodeLevel input = .ok (level, rest)) :
    rest.length < input.length := by
  simp only [decodeLevel, bind_eq_ok, orCorruption_eq_ok, Prod.exists] at h
  obtain ⟨level', input', hlev, h⟩ := h
  split_ifs at h with hrange
  obtain ⟨rfl, rfl⟩ : _ ∧ _ := by simpa [pure, Except.pure] using h
  exact length_lt_of_getVarint32 hlev

private theorem length_lt_of_decodeFile {file : FileMetaData}
    (h : FileMetaData.decodeFrom input = .ok (file, rest)) : rest.length < input.length := by
  simp only [FileMetaData.decodeFrom, bind_eq_ok, orCorruption_eq_ok, Prod.exists] at h
  obtain ⟨number, i₁, h₁, size, i₂, h₂, smallest, i₃, h₃, largest, i₄, h₄, h⟩ := h
  obtain ⟨-, rfl⟩ : _ ∧ _ := by simpa [pure, Except.pure] using h
  have := length_lt_of_getVarint64 h₁
  have := length_lt_of_getVarint64 h₂
  have := length_lt_of_getLengthPrefixedSlice h₃
  have := length_lt_of_getLengthPrefixedSlice h₄
  omega

/-- Every field takes at least one byte, so the loop over the input ends. -/
theorem length_lt_of_decodeField {e e' : VersionEdit} (h : decodeField e input = .ok (e', rest)) :
    rest.length < input.length := by
  simp only [decodeField, bind_eq_ok, orCorruption_eq_ok, Prod.exists] at h
  obtain ⟨tag, i₁, htag, h⟩ := h
  refine lt_of_le_of_lt ?_ (length_lt_of_getVarint32 htag)
  split at h
  all_goals simp only [bind_eq_ok, orCorruption_eq_ok, Prod.exists, pure, Except.pure,
    Except.ok.injEq, Prod.mk.injEq, reduceCtorEq] at h
  · obtain ⟨name, i₂, hname, -, rfl⟩ := h
    exact (length_lt_of_getLengthPrefixedSlice hname).le
  iterate 4
    · obtain ⟨number, i₂, hnum, -, rfl⟩ := h
      exact (length_lt_of_getVarint64 hnum).le
  · obtain ⟨level, i₂, hlev, key, i₃, hkey, -, rfl⟩ := h
    exact ((length_lt_of_getLengthPrefixedSlice hkey).trans (length_lt_of_decodeLevel hlev)).le
  · obtain ⟨level, i₂, hlev, number, i₃, hnum, -, rfl⟩ := h
    exact ((length_lt_of_getVarint64 hnum).trans (length_lt_of_decodeLevel hlev)).le
  · obtain ⟨level, i₂, hlev, file, i₃, hfile, -, rfl⟩ := h
    exact ((length_lt_of_decodeFile hfile).trans (length_lt_of_decodeLevel hlev)).le

/-- The loop of `VersionEdit::decode_from`, with the edit read so far and the cursor. -/
def decodeLoop (e : VersionEdit) (input : Bytes) : Result (VersionEdit × Bytes) :=
  if input.isEmpty then .ok (e, input)
  else
    match _h : decodeField e input with
    | .error s => .error s
    | .ok (e', rest) => decodeLoop e' rest
termination_by input.length
decreasing_by exact length_lt_of_decodeField ‹_›

/-- `VersionEdit::decode_from`, with the cursor that it leaves. -/
def decodeFrom (input : Bytes) : Result (VersionEdit × Bytes) := decodeLoop {} input

/-! ### Round trip -/

theorem decodeLoop_nil (e : VersionEdit) : decodeLoop e [] = .ok (e, []) := by
  rw [decodeLoop, if_pos (by rfl)]

theorem decodeLoop_of_decodeField {e e' : VersionEdit} (h : decodeField e input = .ok (e', rest)) :
    decodeLoop e input = decodeLoop e' rest := by
  have hne : ¬ input.isEmpty := by
    have := length_lt_of_decodeField h
    cases input <;> simp_all
  rw [decodeLoop, if_neg hne]
  split
  · simp_all
  · simp_all

end VersionEdit

/-- The numbers and strings of a file's metadata fit their machine types. -/
structure FileMetaData.Encodable (f : FileMetaData) : Prop where
  number : f.number < 2 ^ 64
  fileSize : f.fileSize < 2 ^ 64
  smallest : f.smallest.length < 2 ^ 32
  largest : f.largest.length < 2 ^ 32

namespace VersionEdit

/-- The numbers and strings of an edit fit their machine types and its levels are levels. -/
structure Encodable (e : VersionEdit) : Prop where
  comparator : ∀ name ∈ e.comparator, name.length < 2 ^ 32
  logNumber : ∀ n ∈ e.logNumber, n < 2 ^ 64
  prevLogNumber : ∀ n ∈ e.prevLogNumber, n < 2 ^ 64
  nextFileNumber : ∀ n ∈ e.nextFileNumber, n < 2 ^ 64
  lastSequence : ∀ n ∈ e.lastSequence, n < 2 ^ 64
  compactPointers : ∀ p ∈ e.compactPointers, p.level < numLevels ∧ p.key.length < 2 ^ 32
  deletedFiles : ∀ d ∈ e.deletedFiles, d.level < numLevels ∧ d.number < 2 ^ 64
  newFiles : ∀ f ∈ e.newFiles, f.level < numLevels ∧ f.file.Encodable

end VersionEdit

theorem FileMetaData.decodeFrom_encode {f : FileMetaData} (rest : Bytes) (h : f.Encodable) :
    FileMetaData.decodeFrom (f.encode ++ rest) = .ok (f, rest) := by
  simp only [FileMetaData.decodeFrom, FileMetaData.encode, append_assoc,
    getVarint64_putVarint64 _ h.number, getVarint64_putVarint64 _ h.fileSize,
    getLengthPrefixedSlice_put _ h.smallest, getLengthPrefixedSlice_put _ h.largest,
    orCorruption, ok_bind]
  rfl

namespace VersionEdit

theorem decodeLevel_putVarint32 {level : ℕ} (rest : Bytes) (h : level < numLevels) :
    decodeLevel (putVarint32 level ++ rest) = .ok (level, rest) := by
  have hfits : level < 2 ^ 32 := h.trans (by decide)
  rw [decodeLevel, getVarint32_putVarint32 _ hfits]
  simp only [orCorruption, ok_bind, if_neg (not_le.mpr h)]
  rfl

private theorem decodeLoop_encodeComparator {o : Option Bytes} (rest : Bytes)
    (h : ∀ name ∈ o, name.length < 2 ^ 32) :
    decodeLoop {} (encodeComparator o ++ rest) = decodeLoop { comparator := o } rest := by
  cases o with
  | none => rfl
  | some name =>
    refine decodeLoop_of_decodeField ?_
    rw [decodeField, encodeComparator, append_assoc, getVarint32_putVarint32 _ (by decide)]
    simp only [orCorruption, ok_bind, getLengthPrefixedSlice_put _ (h name rfl)]
    rfl

section

variable (e : VersionEdit) (rest : Bytes)

private theorem decodeField_compactPointer {p : CompactPointer}
    (h : p.level < numLevels ∧ p.key.length < 2 ^ 32) :
    decodeField e (encodeCompactPointer p ++ rest) =
      .ok ({ e with compactPointers := e.compactPointers ++ [p] }, rest) := by
  rw [decodeField, encodeCompactPointer, append_assoc, append_assoc,
    getVarint32_putVarint32 _ (by decide)]
  simp only [orCorruption, ok_bind, decodeLevel_putVarint32 _ h.1, getLengthPrefixedSlice_put _ h.2]
  rfl

private theorem decodeField_deletedFile {d : DeletedFile}
    (h : d.level < numLevels ∧ d.number < 2 ^ 64) :
    decodeField e (encodeDeletedFile d ++ rest) =
      .ok ({ e with deletedFiles := e.deletedFiles ++ [d] }, rest) := by
  rw [decodeField, encodeDeletedFile, append_assoc, append_assoc,
    getVarint32_putVarint32 _ (by decide)]
  simp only [orCorruption, ok_bind, decodeLevel_putVarint32 _ h.1, getVarint64_putVarint64 _ h.2]
  rfl

private theorem decodeField_newFile {f : NewFile} (h : f.level < numLevels ∧ f.file.Encodable) :
    decodeField e (encodeNewFile f ++ rest) =
      .ok ({ e with newFiles := e.newFiles ++ [f] }, rest) := by
  rw [decodeField, encodeNewFile, append_assoc, append_assoc, getVarint32_putVarint32 _ (by decide)]
  simp only [orCorruption, ok_bind, decodeLevel_putVarint32 _ h.1,
    FileMetaData.decodeFrom_encode _ h.2]
  rfl

/-- A list field, one item after the other. -/
private theorem decodeLoop_flatMap {α : Type} {encodeItem : α → Bytes} {l : List α}
    (push : VersionEdit → List α → VersionEdit) (hnil : ∀ e, push e [] = e)
    (hcons : ∀ e a l, push (push e [a]) l = push e (a :: l))
    (h : ∀ a ∈ l, ∀ e rest, decodeField e (encodeItem a ++ rest) = .ok (push e [a], rest)) :
    decodeLoop e (l.flatMap encodeItem ++ rest) = decodeLoop (push e l) rest := by
  induction l generalizing e with
  | nil => rw [hnil]; rfl
  | cons a l ih =>
    rw [flatMap_cons, append_assoc,
      decodeLoop_of_decodeField (h a mem_cons_self _ _),
      ih _ fun b hb => h b (mem_cons_of_mem a hb), hcons]

private theorem decodeLoop_compactPointers {l : List CompactPointer}
    (h : ∀ p ∈ l, p.level < numLevels ∧ p.key.length < 2 ^ 32) :
    decodeLoop e (l.flatMap encodeCompactPointer ++ rest) =
      decodeLoop { e with compactPointers := e.compactPointers ++ l } rest :=
  decodeLoop_flatMap e rest (fun e l => { e with compactPointers := e.compactPointers ++ l })
    (by simp) (by simp) (fun p hp e rest => decodeField_compactPointer e rest (h p hp))

private theorem decodeLoop_deletedFiles {l : List DeletedFile}
    (h : ∀ d ∈ l, d.level < numLevels ∧ d.number < 2 ^ 64) :
    decodeLoop e (l.flatMap encodeDeletedFile ++ rest) =
      decodeLoop { e with deletedFiles := e.deletedFiles ++ l } rest :=
  decodeLoop_flatMap e rest (fun e l => { e with deletedFiles := e.deletedFiles ++ l })
    (by simp) (by simp) (fun d hd e rest => decodeField_deletedFile e rest (h d hd))

private theorem decodeLoop_newFiles {l : List NewFile}
    (h : ∀ f ∈ l, f.level < numLevels ∧ f.file.Encodable) :
    decodeLoop e (l.flatMap encodeNewFile ++ rest) =
      decodeLoop { e with newFiles := e.newFiles ++ l } rest :=
  decodeLoop_flatMap e rest (fun e l => { e with newFiles := e.newFiles ++ l })
    (by simp) (by simp) (fun f hf e rest => decodeField_newFile e rest (h f hf))

end

/-- The edit with the scalar of a tag set. -/
private def setNumber (e : VersionEdit) (n : ℕ) : ℕ → VersionEdit
  | 2 => { e with logNumber := some n }
  | 9 => { e with prevLogNumber := some n }
  | 3 => { e with nextFileNumber := some n }
  | _ => { e with lastSequence := some n }

private theorem decodeField_number {tag n : ℕ} (e : VersionEdit) (rest : Bytes)
    (htag : tag ∈ [2, 9, 3, 4]) (hn : n < 2 ^ 64) :
    decodeField e (putVarint32 tag ++ (putVarint64 n ++ rest)) = .ok (setNumber e n tag, rest) := by
  have hfits : tag < 2 ^ 32 := by
    simp only [mem_cons, not_mem_nil, or_false] at htag
    omega
  rw [decodeField, getVarint32_putVarint32 _ hfits]
  simp only [mem_cons, not_mem_nil, or_false] at htag
  rcases htag with rfl | rfl | rfl | rfl <;>
    simp only [orCorruption, ok_bind, getVarint64_putVarint64 _ hn] <;> rfl

private theorem decodeLoop_number {o : Option ℕ} {tag : ℕ} (set : Option ℕ → VersionEdit)
    (rest : Bytes) (h : ∀ n ∈ o, n < 2 ^ 64)
    (hfield : ∀ n, n < 2 ^ 64 →
      decodeField (set none) (putVarint32 tag ++ (putVarint64 n ++ rest)) =
        .ok (set (some n), rest)) :
    decodeLoop (set none) (encodeNumber tag o ++ rest) = decodeLoop (set o) rest := by
  cases o with
  | none => rfl
  | some n =>
    refine decodeLoop_of_decodeField ?_
    rw [encodeNumber, append_assoc]
    exact hfield n (h n rfl)

variable {input rest : Bytes} {e : VersionEdit}

/-- **Round trip of version edits.** -/
theorem decodeFrom_encode (h : e.Encodable) : decodeFrom e.encode = .ok (e, []) := by
  obtain ⟨comparator, logNumber, prevLogNumber, nextFileNumber, lastSequence, compactPointers,
    deletedFiles, newFiles⟩ := e
  obtain ⟨h₁, h₂, h₃, h₄, h₅, h₆, h₇, h₈⟩ := h
  refine (decodeLoop_encodeComparator _ h₁).trans ?_
  refine (decodeLoop_number (fun o => ⟨comparator, o, none, none, none, [], [], []⟩) _ h₂
    fun n hn => ?_).trans ?_
  · exact decodeField_number _ _ (by decide) hn
  refine (decodeLoop_number (fun o => ⟨comparator, logNumber, o, none, none, [], [], []⟩) _ h₃
    fun n hn => ?_).trans ?_
  · exact decodeField_number _ _ (by decide) hn
  refine (decodeLoop_number (fun o => ⟨comparator, logNumber, prevLogNumber, o, none, [], [], []⟩)
    _ h₄ fun n hn => ?_).trans ?_
  · exact decodeField_number _ _ (by decide) hn
  refine (decodeLoop_number
    (fun o => ⟨comparator, logNumber, prevLogNumber, nextFileNumber, o, [], [], []⟩)
    _ h₅ fun n hn => ?_).trans ?_
  · exact decodeField_number _ _ (by decide) hn
  refine (decodeLoop_compactPointers _ _ h₆).trans ?_
  refine (decodeLoop_deletedFiles _ _ h₇).trans ?_
  rw [← append_nil (newFiles.flatMap _)]
  refine (decodeLoop_newFiles _ _ h₈).trans ?_
  exact decodeLoop_nil _

/-! ### Accepted bytes -/

private theorem lt_numLevels_of_decodeLevel {level : ℕ}
    (h : decodeLevel input = .ok (level, rest)) : level < numLevels := by
  simp only [decodeLevel, bind_eq_ok, orCorruption_eq_ok, Prod.exists] at h
  obtain ⟨level', input', hlev, h⟩ := h
  split_ifs at h with hrange
  obtain ⟨rfl, rfl⟩ : _ ∧ _ := by simpa [pure, Except.pure] using h
  exact not_le.mp hrange

private theorem encodable_of_decodeFile {file : FileMetaData}
    (h : FileMetaData.decodeFrom input = .ok (file, rest)) : file.Encodable := by
  simp only [FileMetaData.decodeFrom, bind_eq_ok, orCorruption_eq_ok, Prod.exists] at h
  obtain ⟨number, i₁, h₁, size, i₂, h₂, smallest, i₃, h₃, largest, i₄, h₄, h⟩ := h
  obtain ⟨rfl, -⟩ : _ ∧ _ := by simpa [pure, Except.pure] using h
  exact ⟨lt_of_getVarint64 h₁, lt_of_getVarint64 h₂,
    length_lt_two_pow_of_getLengthPrefixedSlice h₃, length_lt_two_pow_of_getLengthPrefixedSlice h₄⟩

private theorem forall_mem_concat {α : Type*} {P : α → Prop} {l : List α} {a : α}
    (hl : ∀ b ∈ l, P b) (ha : P a) : ∀ b ∈ l ++ [a], P b := by
  intro b hb
  rcases mem_append.mp hb with hb | hb
  · exact hl b hb
  · exact mem_singleton.mp hb ▸ ha

/-- A field that was read fits its machine type. -/
theorem Encodable.decodeField {e' : VersionEdit} (he : e.Encodable)
    (h : decodeField e input = .ok (e', rest)) : e'.Encodable := by
  simp only [VersionEdit.decodeField, bind_eq_ok, orCorruption_eq_ok, Prod.exists] at h
  obtain ⟨tag, i₁, -, h⟩ := h
  split at h
  all_goals simp only [bind_eq_ok, orCorruption_eq_ok, Prod.exists, pure, Except.pure,
    Except.ok.injEq, Prod.mk.injEq, reduceCtorEq] at h
  · obtain ⟨name, i₂, hname, rfl, -⟩ := h
    exact { he with comparator := by simpa using length_lt_two_pow_of_getLengthPrefixedSlice hname }
  · obtain ⟨number, i₂, hnum, rfl, -⟩ := h
    exact { he with logNumber := by simpa using lt_of_getVarint64 hnum }
  · obtain ⟨number, i₂, hnum, rfl, -⟩ := h
    exact { he with prevLogNumber := by simpa using lt_of_getVarint64 hnum }
  · obtain ⟨number, i₂, hnum, rfl, -⟩ := h
    exact { he with nextFileNumber := by simpa using lt_of_getVarint64 hnum }
  · obtain ⟨number, i₂, hnum, rfl, -⟩ := h
    exact { he with lastSequence := by simpa using lt_of_getVarint64 hnum }
  · obtain ⟨level, i₂, hlev, key, i₃, hkey, rfl, -⟩ := h
    have hitem := And.intro (lt_numLevels_of_decodeLevel hlev)
      (length_lt_two_pow_of_getLengthPrefixedSlice hkey)
    exact { he with compactPointers := forall_mem_concat he.compactPointers hitem }
  · obtain ⟨level, i₂, hlev, number, i₃, hnum, rfl, -⟩ := h
    have hitem := And.intro (lt_numLevels_of_decodeLevel hlev) (lt_of_getVarint64 hnum)
    exact { he with deletedFiles := forall_mem_concat he.deletedFiles hitem }
  · obtain ⟨level, i₂, hlev, file, i₃, hfile, rfl, -⟩ := h
    have hitem := And.intro (lt_numLevels_of_decodeLevel hlev) (encodable_of_decodeFile hfile)
    exact { he with newFiles := forall_mem_concat he.newFiles hitem }

theorem Encodable.decodeLoop {e' : VersionEdit} (he : e.Encodable)
    (h : decodeLoop e input = .ok (e', rest)) : e'.Encodable := by
  fun_induction VersionEdit.decodeLoop e input with
  | case1 => exact (Prod.mk.inj (Except.ok.inj h)).1 ▸ he
  | case2 => cases h
  | case3 e input hempty e₁ rest hfield ih => exact ih (he.decodeField hfield) h

/-- An edit without fields. -/
theorem encodable_default : ({} : VersionEdit).Encodable := by
  constructor <;> simp

/-- **Version edits survive being written and read**: every edit that fits, and every edit that was
read from any bytes at all. -/
theorem roundTrip_encode :
    (∀ e : VersionEdit, e.Encodable → decodeFrom e.encode = .ok (e, [])) ∧
      ∀ (b rest : Bytes) (e : VersionEdit), decodeFrom b = .ok (e, rest) →
        decodeFrom e.encode = .ok (e, []) :=
  ⟨fun _ he => decodeFrom_encode he,
    fun _ _ _ h => decodeFrom_encode (encodable_default.decodeLoop h)⟩

/-- An edit with every kind of field. -/
def fullEdit : VersionEdit where
  comparator := some [97, 98]
  logNumber := some 300
  prevLogNumber := some 0
  nextFileNumber := some (2 ^ 64 - 1)
  lastSequence := some 5
  compactPointers := [⟨0, [1, 2]⟩, ⟨6, []⟩]
  deletedFiles := [⟨1, 128⟩]
  newFiles := [⟨2, ⟨7, 4096, [1], [2]⟩⟩, ⟨0, ⟨8, 1, [], [3]⟩⟩]

theorem encodable_fullEdit : fullEdit.Encodable := by
  constructor <;> simp [fullEdit, numLevels]
  exact ⟨⟨by decide, by decide, by decide, by decide⟩, by decide, by decide, by decide, by decide⟩

/-- The edit is read back, also from bytes in which its log number stands twice. -/
theorem roundTrip_fullEdit : fullEdit.Encodable ∧
    decodeFrom fullEdit.encode = .ok (fullEdit, []) ∧
    decodeFrom (encodeNumber 2 (some 1) ++ fullEdit.encode) = .ok (fullEdit, []) ∧
    decodeFrom fullEdit.encode = .ok (fullEdit, []) := by
  have htwice : decodeFrom (encodeNumber 2 (some 1) ++ fullEdit.encode) =
      .ok (fullEdit, []) := by decide +kernel
  exact ⟨encodable_fullEdit, roundTrip_encode.1 fullEdit encodable_fullEdit, htwice,
    roundTrip_encode.2 _ _ _ htwice⟩

end VersionEdit
end PulsearcDb
