import Mathlib.Algebra.Group.Nat.Defs
import Mathlib.Data.List.Basic
import Mathlib.Order.Basic

/-!
# File names

`filename/filename.rs`. The files of a database have numbers in their names, and `parse_file_name`
reads the number and the kind of a file back from a directory listing. The number is read with
`str::parse::<u64>`, which allows a plus sign: `+5.log` is taken for log 5, although nothing writes
a file of that name.

Strings are lists of characters here.
-/

namespace PulsearcDb

open List

/-- The kinds of files in a directory. -/
inductive FileType
  | logFile
  | dbLockFile
  | tableFile
  | descriptorFile
  | currentFile
  | tempFile
  | infoLogFile
  deriving DecidableEq, Repr

namespace FileName

/-! ### Writing names -/

/-- `number:06` in a format string. -/
def padded (number : ℕ) : List Char := (Nat.toDigits 10 number).leftpad 6 '0'

/-- The number with six digits or more, and a suffix. -/
def makeFileName (dbname : List Char) (number : ℕ) (suffix : List Char) : List Char :=
  dbname ++ '/' :: (padded number ++ '.' :: suffix)

/-- The name of a log. -/
def logFileName (dbname : List Char) (number : ℕ) : List Char :=
  makeFileName dbname number "log".toList

/-- The name of a table. -/
def tableFileName (dbname : List Char) (number : ℕ) : List Char :=
  makeFileName dbname number "ldb".toList

/-- The older name of a table. -/
def sstTableFileName (dbname : List Char) (number : ℕ) : List Char :=
  makeFileName dbname number "sst".toList

/-- The name of a temporary file. -/
def tempFileName (dbname : List Char) (number : ℕ) : List Char :=
  makeFileName dbname number "dbtmp".toList

/-- The name of a manifest. -/
def descriptorFileName (dbname : List Char) (number : ℕ) : List Char :=
  dbname ++ '/' :: ("MANIFEST-".toList ++ padded number)

/-! ### Reading names -/

/-- The digits of `u64::from_str_radix`, with its checks for overflow. -/
def parseDigits : ℕ → List Char → Option ℕ
  | result, [] => some result
  | result, ch :: rest =>
    if ch.isDigit ∧ result * 10 < 2 ^ 64 ∧ result * 10 + (ch.toNat - '0'.toNat) < 2 ^ 64 then
      parseDigits (result * 10 + (ch.toNat - '0'.toNat)) rest
    else none

/-- `str::parse::<u64>`. -/
def parseU64 : List Char → Option ℕ
  | [] => none
  | ['+'] => none
  | '+' :: digits => parseDigits 0 digits
  | digits => parseDigits 0 digits

/-- The part behind the last slash. -/
def basename (filename : List Char) : List Char :=
  (filename.reverse.takeWhile (· ≠ '/')).reverse

/-- The kind of file that a suffix stands for. -/
def suffixType (suffix : List Char) : Option FileType :=
  if suffix = "log".toList then some .logFile
  else if suffix = "ldb".toList ∨ suffix = "sst".toList then some .tableFile
  else if suffix = "dbtmp".toList then some .tempFile
  else none

/-- The number and the kind that a name stands for. -/
def parseFileName (filename : List Char) : Option (ℕ × FileType) :=
  let basename := basename filename
  if basename = "CURRENT".toList then some (0, .currentFile)
  else if basename = "LOCK".toList then some (0, .dbLockFile)
  else if basename = "LOG".toList ∨ basename = "LOG.old".toList then some (0, .infoLogFile)
  else match basename.dropPrefix? "MANIFEST-".toList with
    | some rest => do
      let number ← parseU64 rest
      return (number, .descriptorFile)
    | none => do
      let dot ← basename.findIdx? (· = '.')
      let number ← parseU64 (basename.take dot)
      let fileType ← suffixType (basename.drop (dot + 1))
      return (number, fileType)

/-! ### Numerals -/

/-- A non-empty string of digits, and its value in 64 bits. -/
structure IsNumeral (digits : List Char) (n : ℕ) : Prop where
  ne_nil : digits ≠ []
  isDigit : ∀ ch ∈ digits, ch.isDigit
  value : Nat.ofDigitChars 10 digits 0 = n
  lt : n < 2 ^ 64

theorem le_ofDigitChars (digits : List Char) (init : ℕ) :
    init ≤ Nat.ofDigitChars 10 digits init := by
  induction digits generalizing init with
  | nil => exact Nat.le_refl init
  | cons ch digits ih =>
    have hstep : init ≤ 10 * init + (ch.toNat - '0'.toNat) := by omega
    exact Nat.le_trans hstep (ih _)

variable {n : ℕ}

/-- The checks for overflow on the way are one check of the value. -/
theorem parseDigits_eq_some_iff {digits : List Char} {result : ℕ} (hres : result < 2 ^ 64) :
    parseDigits result digits = some n ↔
      (∀ ch ∈ digits, ch.isDigit) ∧ Nat.ofDigitChars 10 digits result = n ∧ n < 2 ^ 64 := by
  induction digits generalizing result with
  | nil =>
    rw [parseDigits, Option.some.injEq]
    constructor
    · rintro rfl
      exact ⟨fun _ h => absurd h not_mem_nil, rfl, hres⟩
    · rintro ⟨-, rfl, -⟩
      rfl
  | cons ch digits ih =>
    have hval : Nat.ofDigitChars 10 (ch :: digits) result =
        Nat.ofDigitChars 10 digits (result * 10 + (ch.toNat - '0'.toNat)) := by
      rw [Nat.mul_comm]
      rfl
    rw [parseDigits, hval, forall_mem_cons]
    split_ifs with hch
    · rw [ih hch.2.2, and_iff_right hch.1]
    · refine iff_of_false (fun h => by cases h) ?_
      rintro ⟨⟨hd, -⟩, hn, hlt⟩
      have hle := le_ofDigitChars digits (result * 10 + (ch.toNat - '0'.toNat))
      exact hch ⟨hd, by omega, by omega⟩

theorem parseDigits_zero_iff {digits : List Char} (hne : digits ≠ []) :
    parseDigits 0 digits = some n ↔ IsNumeral digits n := by
  rw [parseDigits_eq_some_iff (by decide)]
  exact ⟨fun h => ⟨hne, h.1, h.2.1, h.2.2⟩, fun h => ⟨h.isDigit, h.value, h.lt⟩⟩

/-- A numeral with a plus sign. -/
def IsSigned (text : List Char) (n : ℕ) : Prop :=
  ∃ digits, text = '+' :: digits ∧ IsNumeral digits n

/-- **What is read as a number**: a numeral, with or without a sign. -/
theorem parseU64_eq_some_iff {text : List Char} :
    parseU64 text = some n ↔ IsNumeral text n ∨ IsSigned text n := by
  have hplus : ∀ {rest : List Char}, ¬ IsNumeral ('+' :: rest) n := fun h =>
    absurd (h.isDigit '+' mem_cons_self) (by decide)
  rcases text with _ | ⟨ch, rest⟩
  · refine iff_of_false (fun h => by cases h) ?_
    rintro (h | ⟨digits, h, -⟩)
    · exact h.ne_nil rfl
    · cases h
  · by_cases hch : ch = '+'
    · subst hch
      rw [or_iff_right hplus]
      have hs : IsSigned ('+' :: rest) n ↔ IsNumeral rest n := by
        refine ⟨?_, fun h => ⟨rest, rfl, h⟩⟩
        rintro ⟨digits, heq, h⟩
        exact tail_eq_of_cons_eq heq ▸ h
      rw [hs]
      rcases rest with _ | ⟨ch, rest⟩
      · exact iff_of_false (fun h => by cases h) fun h => h.ne_nil rfl
      · exact parseDigits_zero_iff (cons_ne_nil ch rest)
    · have hunsigned : ¬ IsSigned (ch :: rest) n := by
        rintro ⟨digits, heq, -⟩
        exact hch (head_eq_of_cons_eq heq)
      rw [or_iff_left hunsigned, ← parseDigits_zero_iff (cons_ne_nil ch rest)]
      simp [parseU64, hch]

/-! ### Names with numbers -/

/-- The suffixes of the numbered files of a kind. -/
def suffixes : FileType → List (List Char)
  | .logFile => ["log".toList]
  | .tableFile => ["ldb".toList, "sst".toList]
  | .tempFile => ["dbtmp".toList]
  | _ => []

theorem suffixType_eq_some_iff {suffix : List Char} {t : FileType} :
    suffixType suffix = some t ↔ suffix ∈ suffixes t := by
  rw [suffixType]
  split_ifs with hlog htab htemp
  · subst hlog
    cases t <;> decide
  · rcases htab with rfl | rfl <;> cases t <;> decide
  · subst htemp
    cases t <;> decide
  · rw [not_or] at htab
    refine iff_of_false (fun h => by cases h) ?_
    cases t <;> simp only [suffixes, mem_cons, not_mem_nil, or_false, hlog, htab.1,
      htab.2, htemp, not_false_eq_true]

/-- The kinds of files with a number in their names. -/
def Numbered : FileType → Prop
  | .logFile | .tableFile | .descriptorFile | .tempFile => True
  | _ => False

/-- A name with a number: `P` says what stands for the number. -/
def Named (P : List Char → ℕ → Prop) (basename : List Char) (n : ℕ) (t : FileType) : Prop :=
  ∃ text, P text n ∧
    (t = .descriptorFile ∧ basename = "MANIFEST-".toList ++ text ∨
      ∃ suffix ∈ suffixes t, basename = text ++ '.' :: suffix)

/-- **The names that the engine writes patterns for.** -/
def IsFileName : List Char → ℕ → FileType → Prop := Named IsNumeral

/-- Such a name with a plus sign before the number. -/
def HasSign (basename : List Char) : Prop := ∃ n t, Named IsSigned basename n t

/-- The names of numbered files are read exactly. -/
def ParsesExactly (filename : List Char) : Prop :=
  ∀ n t, Numbered t → (parseFileName filename = some (n, t) ↔ IsFileName (basename filename) n t)

/-! ### Reading names with numbers -/

section Read

variable {text : List Char} {n : ℕ} {t : FileType}

/-- What is read as a number starts with a digit or a sign and has no dot. -/
theorem exists_cons_of_parseU64 (h : parseU64 text = some n) :
    '.' ∉ text ∧ ∃ ch rest, text = ch :: rest ∧ ch ≠ 'C' ∧ ch ≠ 'L' ∧ ch ≠ 'M' := by
  have hd : ∀ {ch : Char}, ch.isDigit → ch ≠ 'C' ∧ ch ≠ 'L' ∧ ch ≠ 'M' ∧ ch ≠ '.' := by
    intro ch hch
    refine ⟨?_, ?_, ?_, ?_⟩ <;> rintro rfl <;> exact absurd hch (by decide)
  rcases parseU64_eq_some_iff.mp h with hnumeral | ⟨digits, rfl, hnumeral⟩
  · refine ⟨fun hdot => (hd (hnumeral.isDigit _ hdot)).2.2.2 rfl, ?_⟩
    obtain ⟨ch, rest, rfl⟩ := exists_cons_of_ne_nil hnumeral.ne_nil
    obtain ⟨hC, hL, hM, -⟩ := hd (hnumeral.isDigit ch mem_cons_self)
    exact ⟨ch, rest, rfl, hC, hL, hM⟩
  · refine ⟨fun hdot => ?_, '+', digits, rfl, by decide, by decide, by decide⟩
    rcases mem_cons.mp hdot with hdot | hdot
    · exact absurd hdot (by decide)
    · exact (hd (hnumeral.isDigit _ hdot)).2.2.2 rfl

theorem dropPrefix_manifest {basename rest : List Char} :
    basename.dropPrefix? "MANIFEST-".toList = some rest ↔
      basename = "MANIFEST-".toList ++ rest := by
  rw [dropPrefix?_eq_some_iff]
  constructor
  · rintro ⟨start, rfl, hstart⟩
    rw [eq_of_beq hstart]
  · rintro rfl
    exact ⟨_, rfl, beq_self_eq_true _⟩

/-- The number and the suffix of a name are split at the first dot. -/
theorem findIdx_dot {basename : List Char} {dot : ℕ} (h : basename.findIdx? (· = '.') = some dot) :
    basename = basename.take dot ++ '.' :: basename.drop (dot + 1) := by
  obtain ⟨hlt, hdot, -⟩ := findIdx?_eq_some_iff_getElem.mp h
  rw [← of_decide_eq_true hdot, ← drop_eq_getElem_cons hlt, take_append_drop]

theorem findIdx_append_dot (hdot : '.' ∉ text) (suffix : List Char) :
    (text ++ '.' :: suffix).findIdx? (· = '.') = some text.length := by
  have hnone : text.findIdx? (· = '.') = none := by
    rw [findIdx?_eq_none_iff]
    intro ch hch
    exact decide_eq_false fun heq => hdot (heq ▸ hch)
  rw [findIdx?_append, hnone]
  simp [findIdx?_cons]

variable {filename base : List Char}

theorem named_of_parseFileName (ht : Numbered t) (h : parseFileName filename = some (n, t)) :
    Named (fun text n => parseU64 text = some n) (basename filename) n t := by
  rw [parseFileName] at h
  generalize basename filename = base at h ⊢
  split_ifs at h with hcur hlock hlog
  · obtain ⟨-, rfl⟩ := Prod.mk.inj (Option.some.inj h)
    exact ht.elim
  · obtain ⟨-, rfl⟩ := Prod.mk.inj (Option.some.inj h)
    exact ht.elim
  · obtain ⟨-, rfl⟩ := Prod.mk.inj (Option.some.inj h)
    exact ht.elim
  rcases hdrop : base.dropPrefix? "MANIFEST-".toList with _ | rest
  · rw [hdrop] at h
    obtain ⟨dot, hdot, h⟩ := Option.bind_eq_some_iff.mp h
    obtain ⟨number, hnum, h⟩ := Option.bind_eq_some_iff.mp h
    obtain ⟨fileType, htype, h⟩ := Option.bind_eq_some_iff.mp h
    obtain ⟨rfl, rfl⟩ := Prod.mk.inj (Option.some.inj h)
    exact ⟨_, hnum, .inr ⟨_, suffixType_eq_some_iff.mp htype, findIdx_dot hdot⟩⟩
  · rw [hdrop] at h
    obtain ⟨number, hnum, h⟩ := Option.bind_eq_some_iff.mp h
    obtain ⟨rfl, rfl⟩ := Prod.mk.inj (Option.some.inj h)
    exact ⟨rest, hnum, .inl ⟨rfl, dropPrefix_manifest.mp hdrop⟩⟩

/-- The first character tells a name from the names without a number. -/
private theorem ne_of_head {ch : Char} {base : List Char} (hC : ch ≠ 'C') (hL : ch ≠ 'L')
    (hhead : base.head? = some ch) :
    base ≠ "CURRENT".toList ∧ base ≠ "LOCK".toList ∧
      ¬ (base = "LOG".toList ∨ base = "LOG.old".toList) := by
  refine ⟨?_, ?_, ?_⟩
  · rintro rfl
    exact hC (Option.some.inj hhead).symm
  · rintro rfl
    exact hL (Option.some.inj hhead).symm
  · rintro (rfl | rfl) <;> exact hL (Option.some.inj hhead).symm

theorem parseFileName_of_named
    (h : Named (fun text n => parseU64 text = some n) (basename filename) n t) :
    parseFileName filename = some (n, t) := by
  rw [parseFileName]
  generalize basename filename = base at h ⊢
  obtain ⟨text, hnum, hname⟩ := h
  obtain ⟨hdot, ch, rest, hcons, hC, hL, hM⟩ := exists_cons_of_parseU64 hnum
  rcases hname with ⟨rfl, rfl⟩ | ⟨suffix, hsuf, rfl⟩
  · obtain ⟨h₁, h₂, h₃⟩ := @ne_of_head 'M' ("MANIFEST-".toList ++ text) (by decide) (by decide) rfl
    rw [if_neg h₁, if_neg h₂, if_neg h₃, dropPrefix_manifest.mpr rfl]
    simp only [hnum, Option.bind_eq_bind, Option.bind_some, Option.pure_def]
  · obtain ⟨h₁, h₂, h₃⟩ := @ne_of_head ch (text ++ '.' :: suffix) hC hL (by rw [hcons]; rfl)
    have hman : (text ++ '.' :: suffix).dropPrefix? "MANIFEST-".toList = none := by
      rw [Option.eq_none_iff_forall_ne_some]
      intro behind hbehind
      have heq := dropPrefix_manifest.mp hbehind
      rw [hcons] at heq
      exact hM (head_eq_of_cons_eq heq)
    have hbehind : (text ++ '.' :: suffix).drop (text.length + 1) = suffix := by
      rw [← drop_drop, drop_left]
      rfl
    rw [if_neg h₁, if_neg h₂, if_neg h₃, hman]
    simp only [findIdx_append_dot hdot, take_left, hbehind, hnum,
      suffixType_eq_some_iff.mpr hsuf, Option.bind_eq_bind, Option.bind_some, Option.pure_def]

/-- **What `parse_file_name` accepts**: the patterns, with what is read as a number. -/
theorem parseFileName_eq_some_iff (ht : Numbered t) :
    parseFileName filename = some (n, t) ↔
      Named (fun text n => parseU64 text = some n) (basename filename) n t :=
  ⟨named_of_parseFileName ht, parseFileName_of_named⟩

theorem Named.numbered {P : List Char → ℕ → Prop} (h : Named P base n t) : Numbered t := by
  obtain ⟨text, -, ⟨rfl, -⟩ | ⟨suffix, hsuf, -⟩⟩ := h
  · trivial
  · cases t <;> trivial

theorem named_or {P Q : List Char → ℕ → Prop} :
    Named (fun text n => P text n ∨ Q text n) base n t ↔ Named P base n t ∨ Named Q base n t := by
  constructor
  · rintro ⟨text, hP | hQ, hname⟩
    · exact .inl ⟨text, hP, hname⟩
    · exact .inr ⟨text, hQ, hname⟩
  · rintro (⟨text, hP, hname⟩ | ⟨text, hQ, hname⟩)
    · exact ⟨text, .inl hP, hname⟩
    · exact ⟨text, .inr hQ, hname⟩

/-- A name is not both with and without a sign. -/
theorem IsFileName.not_hasSign (h : IsFileName base n t) : ¬ HasSign base := by
  rintro ⟨m, t', text', ⟨digits, rfl, -⟩, hs⟩
  obtain ⟨text, hnumeral, hname⟩ := h
  obtain ⟨ch, rest, rfl⟩ := exists_cons_of_ne_nil hnumeral.ne_nil
  have hch := hnumeral.isDigit ch mem_cons_self
  rcases hname with ⟨-, rfl⟩ | ⟨suffix, -, rfl⟩ <;> rcases hs with ⟨-, heq⟩ | ⟨suffix', -, heq⟩
  · have hplus : ch = '+' := head_eq_of_cons_eq (append_cancel_left heq)
    exact absurd hch (hplus ▸ by decide)
  · exact absurd (head_eq_of_cons_eq heq) (by decide)
  · have hM : ch = 'M' := head_eq_of_cons_eq heq
    exact absurd hch (hM ▸ by decide)
  · have hplus : ch = '+' := head_eq_of_cons_eq heq
    exact absurd hch (hplus ▸ by decide)

theorem parseFileName_iff_or (ht : Numbered t) :
    parseFileName filename = some (n, t) ↔
      IsFileName (basename filename) n t ∨ Named IsSigned (basename filename) n t := by
  rw [parseFileName_eq_some_iff ht, IsFileName, ← named_or]
  simp only [parseU64_eq_some_iff]

theorem parsesExactly_iff : ParsesExactly filename ↔ ¬ HasSign (basename filename) := by
  constructor
  · rintro h ⟨n, t, hs⟩
    have ht := hs.numbered
    have hname := (h n t ht).mp ((parseFileName_iff_or ht).mpr (.inr hs))
    exact hname.not_hasSign ⟨n, t, hs⟩
  · intro h n t ht
    rw [parseFileName_iff_or ht, or_iff_left fun hs => h ⟨n, t, hs⟩]

end Read

/-! ### Names that are written -/

theorem isNumeral_padded (hn : n < 2 ^ 64) : IsNumeral (padded n) n where
  ne_nil h := by
    have hnil := (append_eq_nil_iff.mp h).2
    exact Nat.toDigits_ne_nil hnil
  isDigit ch hch := by
    rcases mem_append.mp hch with hch | hch
    · rw [eq_of_mem_replicate hch]
      decide
    · exact Nat.isDigit_of_mem_toDigits (by decide) (by decide) hch
  value := by
    have hzeros : ∀ k, Nat.ofDigitChars 10 (List.replicate k '0') 0 = 0 := by
      intro k
      induction k with
      | zero => rfl
      | succ k ih => exact ih
    rw [padded, List.leftpad, Nat.ofDigitChars_append, hzeros]
    exact Nat.ofDigitChars_toDigits (by decide) (by decide)
  lt := hn

theorem basename_append {name : List Char} (hname : '/' ∉ name) (dbname : List Char) :
    basename (dbname ++ '/' :: name) = name := by
  have hnone : ∀ ch ∈ name.reverse, decide (ch ≠ '/') = true := by
    intro ch hch
    exact decide_eq_true fun heq => hname (heq ▸ mem_reverse.mp hch)
  rw [basename, reverse_append, reverse_cons, append_assoc,
    takeWhile_append_of_pos hnone, singleton_append,
    takeWhile_cons_of_neg (by decide), append_nil, reverse_reverse]

theorem slash_notMem_padded (n : ℕ) : '/' ∉ padded n := by
  intro h
  rcases mem_append.mp h with h | h
  · exact absurd (eq_of_mem_replicate h) (by decide)
  · exact absurd (Nat.isDigit_of_mem_toDigits (by decide) (by decide) h) (by decide)

theorem parseFileName_makeFileName (hn : n < 2 ^ 64) (dbname : List Char) {t : FileType}
    {suffix : List Char} (hsuf : suffix ∈ suffixes t) (hslash : '/' ∉ suffix) :
    parseFileName (makeFileName dbname n suffix) = some (n, t) := by
  have hname : '/' ∉ padded n ++ '.' :: suffix := by
    rw [mem_append, mem_cons, not_or, not_or]
    exact ⟨slash_notMem_padded n, by decide, hslash⟩
  have hfile : IsFileName (padded n ++ '.' :: suffix) n t :=
    ⟨padded n, isNumeral_padded hn, .inr ⟨suffix, hsuf, rfl⟩⟩
  rw [parseFileName_iff_or hfile.numbered, makeFileName, basename_append hname]
  exact .inl hfile

theorem parseFileName_descriptorFileName (hn : n < 2 ^ 64) (dbname : List Char) :
    parseFileName (descriptorFileName dbname n) = some (n, .descriptorFile) := by
  have hname : '/' ∉ "MANIFEST-".toList ++ padded n := by
    rw [mem_append, not_or]
    exact ⟨by decide, slash_notMem_padded n⟩
  have hfile : IsFileName ("MANIFEST-".toList ++ padded n) n .descriptorFile :=
    ⟨padded n, isNumeral_padded hn, .inl ⟨rfl, rfl⟩⟩
  rw [parseFileName_iff_or hfile.numbered, descriptorFileName, basename_append hname]
  exact .inl hfile

/-- **Which names are read exactly**: all without a sign before the number. The names that the
engine writes are among them, and their numbers are read back. -/
theorem parsesExactly_iff_not_hasSign (filename dbname : List Char) (n : ℕ) :
    (ParsesExactly filename ↔ ¬ HasSign (basename filename)) ∧
    (n < 2 ^ 64 →
      parseFileName (logFileName dbname n) = some (n, .logFile) ∧
      parseFileName (tableFileName dbname n) = some (n, .tableFile) ∧
      parseFileName (sstTableFileName dbname n) = some (n, .tableFile) ∧
      parseFileName (tempFileName dbname n) = some (n, .tempFile) ∧
      parseFileName (descriptorFileName dbname n) = some (n, .descriptorFile)) := by
  refine ⟨parsesExactly_iff, fun hn => ⟨?_, ?_, ?_, ?_, ?_⟩⟩
  · exact parseFileName_makeFileName hn dbname (by decide) (by decide)
  · exact parseFileName_makeFileName hn dbname (by decide) (by decide)
  · exact parseFileName_makeFileName hn dbname (by decide) (by decide)
  · exact parseFileName_makeFileName hn dbname (by decide) (by decide)
  · exact parseFileName_descriptorFileName hn dbname

/-- The largest number, in a directory with dots in its name. -/
theorem parsesExactly_largest :
    parseFileName (logFileName "a/b.c".toList (2 ^ 64 - 1)) = some (2 ^ 64 - 1, .logFile) :=
  ((parsesExactly_iff_not_hasSign [] "a/b.c".toList (2 ^ 64 - 1)).2 (by decide)).1

/-- A log with a sign in its name. -/
theorem not_parsesExactly_signed : ¬ ParsesExactly "+5.log".toList := by
  rw [parsesExactly_iff, not_not]
  refine ⟨5, .logFile, ['+', '5'], ⟨['5'], rfl, ?_⟩, .inr ⟨"log".toList, by decide, by decide⟩⟩
  exact ⟨cons_ne_nil _ _, forall_mem_singleton.mpr rfl, rfl, by decide⟩

end FileName
end PulsearcDb
