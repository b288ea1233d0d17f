import PulsearcDb.Entries
import PulsearcDb.Foundation.PartitionPoint
import PulsearcDb.VersionSet.Version

/-!
# Searching a version

`Version::get` of `version_set/version_set.rs` asks the files that may hold a key, one after the
other: those of level 0 whose range covers the key, newest first, and then in each deeper level the
one file that a binary search by largest key finds. The search stops at the first file that has an
answer.

`RecencyOrder.answers_candidates`: when a file holds only newer entries of a key than the files that
are asked after it, and the files of a deeper level lie one behind the other, what the first file
with an answer says is the newest visible entry in the whole version. One key may be split over two
files of a level; the binary search then finds the file with the newest visible entry because the
largest key of a file is the key of an entry.
-/

namespace PulsearcDb

open Recency PartitionPoint List

/-- `enum LookupResult`. -/
inductive LookupResult
  | found (value : Bytes)
  | notFound
  | deleted
  deriving DecidableEq, Repr

/-- `find_file`: the first file whose largest key is not before `key`. -/
def findFile (c : Comparator) (files : List FileMetaData) (key : Bytes) : ℕ :=
  partitionPoint (fun f => icmp c f.largest key == .lt) files

namespace Version

/-- The user-key range of the file covers the key. -/
def covers (c : Comparator) (key : Bytes) (f : FileMetaData) : Bool :=
  (c.compare key (userKey f.smallest)).isGE && (c.compare key (userKey f.largest)).isLE

/-- The files of level 0 that cover the key, newest first. -/
def level0Candidates (c : Comparator) (v : Version) (key : Bytes) : List FileMetaData :=
  ((v.files 0).filter (covers c key)).insertionSort fun a b => b.number ≤ a.number

/-- The file of a deeper level that may hold the key. -/
def levelCandidate (c : Comparator) (v : Version) (key ik : Bytes) (level : ℕ) :
    Option FileMetaData :=
  match (v.files level)[findFile c (v.files level) ik]? with
  | none => none
  | some f => if c.compare key (userKey f.smallest) = .lt then none else some f

/-- The levels `1..NUM_LEVELS`. -/
def deeperLevels : List ℕ := (List.range (numLevels - 1)).map (· + 1)

theorem mem_deeperLevels {level : ℕ} : level ∈ deeperLevels ↔ 0 < level ∧ level < numLevels := by
  simp only [deeperLevels, numLevels, mem_map, mem_range]
  exact ⟨by omega, fun h => ⟨level - 1, by omega⟩⟩

/-- The files that are asked for a key, in their order. -/
def candidates (c : Comparator) (v : Version) (key ik : Bytes) : List FileMetaData :=
  v.level0Candidates c key ++ deeperLevels.filterMap (v.levelCandidate c key ik)

/-- The two loops of `get`. -/
def searchFiles (lookup : ℕ → Bytes → Result LookupResult) (ik : Bytes) :
    List FileMetaData → Result (Option Bytes)
  | [] => .ok none
  | f :: files =>
    match lookup f.number ik with
    | .error e => .error e
    | .ok (.found value) => .ok (some value)
    | .ok .deleted => .ok none
    | .ok .notFound => searchFiles lookup ik files

/-- The first file with an answer decides. -/
def get (c : Comparator) (v : Version) (key ik : Bytes)
    (lookup : ℕ → Bytes → Result LookupResult) : Result (Option Bytes) :=
  searchFiles lookup ik (v.candidates c key ik)

end Version

/-! ### Tables -/

/-- What the metadata of a table say about its entries: they are sorted, and the first and the last
key are the bounds. -/
structure FileOk (entries : List Entry) (f : FileMetaData) : Prop where
  sorted : entries.Pairwise fun a b => ikOrd a.ik < ikOrd b.ik
  smallest : entries.head?.map Entry.ik = some f.smallest
  largest : entries.getLast?.map Entry.ik = some f.largest
  valid : ∀ e ∈ entries, e.Valid

namespace FileOk

variable {entries : List Entry} {f : FileMetaData} {e : Entry}

section

variable (h : FileOk entries f)
include h

theorem exists_smallest : ∃ e ∈ entries, e.ik = f.smallest := by
  obtain ⟨e, he, hik⟩ := Option.map_eq_some_iff.mp h.smallest
  exact ⟨e, mem_of_mem_head? he, hik⟩

theorem exists_largest : ∃ e ∈ entries, e.ik = f.largest := by
  obtain ⟨e, he, hik⟩ := Option.map_eq_some_iff.mp h.largest
  exact ⟨e, mem_of_mem_getLast? he, hik⟩

theorem smallest_le (he : e ∈ entries) : ikOrd f.smallest ≤ ikOrd e.ik := by
  obtain ⟨a, ha, hik⟩ := Option.map_eq_some_iff.mp h.smallest
  obtain ⟨rest, rfl⟩ := head?_eq_some_iff.mp ha
  rw [← hik]
  rcases mem_cons.mp he with rfl | he
  · exact le_rfl
  · exact ((pairwise_cons.mp h.sorted).1 e he).le

theorem le_largest (he : e ∈ entries) : ikOrd e.ik ≤ ikOrd f.largest := by
  obtain ⟨a, ha, hik⟩ := Option.map_eq_some_iff.mp h.largest
  obtain ⟨rest, rfl⟩ := getLast?_eq_some_iff.mp ha
  rw [← hik]
  rcases mem_append.mp he with he | he
  · exact ((pairwise_append.mp h.sorted).2.2 e he a mem_cons_self).le
  · rw [mem_singleton.mp he]

theorem smallest_le_largest : ikOrd f.smallest ≤ ikOrd f.largest := by
  obtain ⟨e, he, hik⟩ := h.exists_smallest
  rw [← hik]
  exact h.le_largest he

theorem key_le_largest (he : e ∈ entries) : e.key ≤ userKey f.largest :=
  userKey_le_of_ikOrd_le (h.le_largest he)

theorem smallest_le_key (he : e ∈ entries) : userKey f.smallest ≤ e.key :=
  userKey_le_of_ikOrd_le (h.smallest_le he)

end

end FileOk

/-! ### The answer of a level -/

section Search

variable {contents : ℕ → List Entry} {k : Bytes} {s : ℕ} {answer : FileMetaData → Option Entry}

/-- The entries of a file. -/
def fileStore (contents : ℕ → List Entry) (f : FileMetaData) : Set Entry :=
  storeOf (contents f.number)

/-- The entries of some files. -/
def filesStore (contents : ℕ → List Entry) (files : List FileMetaData) : Set Entry :=
  {e | ∃ f ∈ files, e ∈ fileStore contents f}

theorem filesStore_append (files files' : List FileMetaData) :
    filesStore contents (files ++ files') =
      filesStore contents files ∪ filesStore contents files' := by
  ext e
  simp [filesStore, or_and_right, exists_or]

variable {v : Version} {f : FileMetaData} {files order : List FileMetaData}
  {runs : List (List Entry)} {r : Option Bytes}

theorem hidden_filesStore :
    Hidden Entry.key Entry.sequence (filesStore contents files) k s ↔
      ∀ f ∈ files, Hidden Entry.key Entry.sequence (fileStore contents f) k s := by
  refine ⟨fun h f hf e he => h e ⟨f, hf, he⟩, ?_⟩
  rintro h e ⟨f, hf, he⟩
  exact h f hf e he

/-- A file that ends before the lookup key has no visible entry. -/
theorem hidden_of_largest_lt (hok : FileOk (contents f.number) f) (hs : s ≤ maxSequenceNumber)
    (h : ikOrd f.largest < ikOrd (lookupKey k s)) :
    Hidden Entry.key Entry.sequence (fileStore contents f) k s := by
  intro e he hk hvis
  have hle := ((hok.valid e he).lookupKey_le_iff hs hk).mpr hvis
  exact absurd (hle.trans (hok.le_largest he)) (not_le.mpr h)

theorem hidden_of_lt_smallest (hok : FileOk (contents f.number) f) (h : k < userKey f.smallest) :
    Hidden Entry.key Entry.sequence (fileStore contents f) k s :=
  fun _ he hk => absurd hk (h.trans_le (hok.smallest_le_key he)).ne'

/-- The first file that reaches the lookup key answers for the files behind it. -/
private theorem answers_first (hok : ∀ g ∈ f :: files, FileOk (contents g.number) g)
    (hsort : ∀ g ∈ files, ikOrd f.largest < ikOrd g.smallest) (hs : s ≤ maxSequenceNumber)
    (hr : ikOrd (lookupKey k s) ≤ ikOrd f.largest) {o : Option Entry}
    (hanswer : Answers Entry.key Entry.sequence (fileStore contents f) k s o) :
    Answers Entry.key Entry.sequence (filesStore contents (f :: files)) k s o := by
  obtain ⟨hf, hfiles⟩ := forall_mem_cons.mp hok
  have hbehind : ∀ a ∈ fileStore contents f, ∀ g ∈ files, ∀ b ∈ fileStore contents g,
      ikOrd a.ik < ikOrd b.ik := fun a ha g hg b hb =>
    ((hf.le_largest ha).trans_lt (hsort g hg)).trans_le ((hfiles g hg).smallest_le hb)
  cases o with
  | none =>
    refine hidden_filesStore.mpr (forall_mem_cons.mpr ⟨hanswer, fun g hg b hb hk hvis => ?_⟩)
    -- The last entry of `f` lies between the lookup key and `b`, so it is visible.
    obtain ⟨last, hlast, hik⟩ := hf.exists_largest
    rw [← hik] at hr
    have hle : k ≤ last.key := Entry.key_le_of_lookupKey_le hr
    have hge : last.key ≤ k := hk ▸ userKey_le_of_ikOrd_le (hbehind last hlast g hg b hb).le
    have hkey : last.key = k := le_antisymm hge hle
    exact hanswer last hlast hkey (((hf.valid last hlast).lookupKey_le_iff hs hkey).mp hr)
  | some e =>
    refine ⟨⟨f, mem_cons_self, hanswer.1⟩, hanswer.2.1, hanswer.2.2.1, ?_⟩
    rintro b ⟨g, hg, hb⟩ hk hvis
    rcases mem_cons.mp hg with rfl | hg
    · exact hanswer.2.2.2 b hb hk hvis
    · exact Entry.sequence_le_of_ikOrd_le (hanswer.2.1.trans hk.symm)
        (hbehind e hanswer.1 g hg b hb).le

/-- **The answer of a deeper level** is the answer of its candidate. -/
theorem answers_levelCandidate {level : ℕ} (hok : ∀ f ∈ v.files level, FileOk (contents f.number) f)
    (hsort : (v.files level).Pairwise fun f g => ikOrd f.largest < ikOrd g.smallest)
    (hs : s ≤ maxSequenceNumber) (hanswer : ∀ f ∈ v.files level,
      Answers Entry.key Entry.sequence (fileStore contents f) k s (answer f)) :
    Answers Entry.key Entry.sequence (filesStore contents (v.files level)) k s
      ((v.levelCandidate bytewiseComparator k (lookupKey k s) level).bind answer) := by
  rw [Version.levelCandidate]
  generalize v.files level = files at *
  have hmono : files.Pairwise fun f g =>
      (icmp bytewiseComparator g.largest (lookupKey k s) == .lt) = true →
        (icmp bytewiseComparator f.largest (lookupKey k s) == .lt) = true := by
    refine hsort.imp_of_mem fun {f g} _ hg hlt h => ?_
    rw [beq_iff_eq, icmp_bytewise_eq_lt] at h ⊢
    exact (hlt.trans_le (hok g hg).smallest_le_largest).trans h
  have hbefore := take_partitionPoint hmono
  have hafter := drop_partitionPoint hmono
  rw [findFile]
  generalize partitionPoint
    (fun f : FileMetaData => icmp bytewiseComparator f.largest (lookupKey k s) == .lt) files =
      n at *
  have hhidden : Hidden Entry.key Entry.sequence (filesStore contents (files.take n)) k s := by
    refine hidden_filesStore.mpr fun f hf =>
      hidden_of_largest_lt (hok f (mem_of_mem_take hf)) hs ?_
    exact icmp_bytewise_eq_lt.mp (beq_iff_eq.mp (hbefore f hf))
  have hstore : filesStore contents files =
      filesStore contents (files.take n) ∪ filesStore contents (files.drop n) := by
    rw [← filesStore_append, take_append_drop]
  rw [← head?_drop, hstore]
  refine Answers.union_hidden hhidden ?_
  rcases hdrop : files.drop n with _ | ⟨f, rest⟩
  · exact fun e he => by simp [filesStore] at he
  · have hmem : ∀ g ∈ f :: rest, g ∈ files := fun g hg => mem_of_mem_drop (hdrop ▸ hg)
    have hok' : ∀ g ∈ f :: rest, FileOk (contents g.number) g := fun g hg => hok g (hmem g hg)
    have hbehind := (pairwise_cons.mp (hdrop ▸ hsort.drop : (f :: rest).Pairwise _)).1
    have hr : ikOrd (lookupKey k s) ≤ ikOrd f.largest := by
      have hf := hafter f (hdrop ▸ mem_cons_self)
      rw [beq_eq_false_iff_ne, Ne, icmp_bytewise_eq_lt] at hf
      exact not_lt.mp hf
    simp only [head?_cons, bytewise_eq_lt]
    split_ifs with hlt
    · refine hidden_filesStore.mpr fun g hg => hidden_of_lt_smallest (hok' g hg) ?_
      rcases mem_cons.mp hg with rfl | hg'
      · exact hlt
      · refine hlt.trans_le (userKey_le_of_ikOrd_le ?_)
        exact (hok' f mem_cons_self).smallest_le_largest.trans (hbehind g hg').le
    · exact answers_first hok' hbehind hs hr (hanswer f (hmem f mem_cons_self))

/-- The file covers the keys of its entries. -/
theorem Version.covers_of_mem (hok : FileOk (contents f.number) f) {e : Entry}
    (he : e ∈ contents f.number) (hk : e.key = k) : covers bytewiseComparator k f := by
  rw [covers, Bool.and_eq_true]
  exact ⟨BytewiseComparator.isGE_compare.mpr (hk ▸ hok.smallest_le_key he),
    BytewiseComparator.isLE_compare.mpr (hk ▸ hok.key_le_largest he)⟩

/-- What the layers of a version have to satisfy for a search. -/
structure SearchOrder (v : Version) (contents : ℕ → List Entry) : Prop where
  files : ∀ level < numLevels, ∀ f ∈ v.files level, FileOk (contents f.number) f
  /-- A file of level 0 with a larger number is newer. -/
  level0 : ∀ f ∈ v.files 0, ∀ g ∈ v.files 0, g.number < f.number →
    Shadows Entry.key Entry.sequence (fileStore contents f) (fileStore contents g)
  /-- A level is newer than the deeper ones. -/
  levels : ∀ level < numLevels, ∀ upper < level,
    Shadows Entry.key Entry.sequence (filesStore contents (v.files upper))
      (filesStore contents (v.files level))
  sorted : ∀ level < numLevels, 0 < level →
    (v.files level).Pairwise fun f g => ikOrd f.largest < ikOrd g.smallest

/-- The entries of a version. -/
def Version.store (v : Version) (contents : ℕ → List Entry) : Set Entry :=
  {e | ∃ level < numLevels, e ∈ filesStore contents (v.files level)}

/-- What a search needs of the layers of a version. An entry may be copied from a layer to a newer
one, so a layer is newer than what the layers below it have more. -/
structure RecencyOrder (v : Version) (contents : ℕ → List Entry) : Prop where
  files : ∀ level < numLevels, ∀ f ∈ v.files level, FileOk (contents f.number) f
  level0 : ∀ f ∈ v.files 0, ∀ g ∈ v.files 0, g.number < f.number →
    Shadows Entry.key Entry.sequence (fileStore contents f)
      (fileStore contents g \ fileStore contents f)
  levels : ∀ level < numLevels, ∀ upper < level,
    Shadows Entry.key Entry.sequence (filesStore contents (v.files upper))
      (filesStore contents (v.files level) \ filesStore contents (v.files upper))
  sorted : ∀ level < numLevels, 0 < level →
    (v.files level).Pairwise fun f g => ikOrd f.largest < ikOrd g.smallest

theorem SearchOrder.recencyOrder (h : SearchOrder v contents) : RecencyOrder v contents where
  files := h.files
  level0 f hf g hg hlt := (h.level0 f hf g hg hlt).mono subset_rfl Set.sdiff_subset
  levels level hlev upper hlt := (h.levels level hlev upper hlt).mono subset_rfl Set.sdiff_subset
  sorted := h.sorted

theorem recencyOrder_of_no_files (h : ∀ level, v.files level = []) : RecencyOrder v contents where
  files level _ _ hf := absurd (h level ▸ hf) not_mem_nil
  level0 _ hf := absurd (h 0 ▸ hf) not_mem_nil
  levels _ _ upper _ := fun _ ⟨_, hf, _⟩ => absurd (h upper ▸ hf) not_mem_nil
  sorted level _ _ := h level ▸ List.Pairwise.nil

namespace RecencyOrder

variable {v : Version}

theorem answers_level0Candidates (h : RecencyOrder v contents)
    (hanswer : ∀ f ∈ v.files 0,
      Answers Entry.key Entry.sequence (fileStore contents f) k s (answer f)) :
    Answers Entry.key Entry.sequence (filesStore contents (v.files 0)) k s
      ((v.level0Candidates bytewiseComparator k).findSome? answer) := by
  have hmem : ∀ f, f ∈ (v.files 0).insertionSort (fun a b => b.number ≤ a.number) ↔ f ∈ v.files 0 :=
    fun f => (perm_insertionSort _ _).mem_iff
  have hstore : filesStore contents (v.files 0) = {e | ∃ f ∈ (v.files 0).insertionSort
      (fun a b : FileMetaData => b.number ≤ a.number), e ∈ fileStore contents f} := by
    ext e
    simp [filesStore, hmem]
  rw [Version.level0Candidates, ← StableSort.filter_insertionSort, hstore, ← filterMap_eq_filter]
  refine answers_filterMap ?_ fun f hf => ?_
  · refine (pairwise_insertionSort _ _).imp_of_mem fun {f g} hf hg hle => ?_
    rcases hle.lt_or_eq with hlt | heq
    · exact h.level0 f ((hmem f).mp hf) g ((hmem g).mp hg) hlt
    · rw [fileStore, fileStore, heq, Set.sdiff_self]
      exact fun _ _ _ hb => hb.elim
  · have hfile := h.files 0 (by decide) f ((hmem f).mp hf)
    rw [Option.guard]
    split_ifs with hcovers
    · exact hanswer f ((hmem f).mp hf)
    · exact fun e he hk _ => hcovers (Version.covers_of_mem hfile he hk)

private theorem store_eq (v : Version) :
    v.store contents = filesStore contents (v.files 0) ∪
      {e | ∃ level ∈ Version.deeperLevels, e ∈ filesStore contents (v.files level)} := by
  ext e
  constructor
  · rintro ⟨level, hlev, he⟩
    cases level with
    | zero => exact .inl he
    | succ level =>
      exact .inr ⟨level + 1, Version.mem_deeperLevels.mpr ⟨level.succ_pos, hlev⟩, he⟩
  · rintro (he | ⟨level, hlev, he⟩)
    · exact ⟨0, by decide, he⟩
    · exact ⟨level, (Version.mem_deeperLevels.mp hlev).2, he⟩

/-- **The first candidate with an answer has the newest visible entry of the version.** -/
theorem answers_candidates (h : RecencyOrder v contents) (hs : s ≤ maxSequenceNumber)
    (hanswer : ∀ level < numLevels, ∀ f ∈ v.files level,
      Answers Entry.key Entry.sequence (fileStore contents f) k s (answer f)) :
    Answers Entry.key Entry.sequence (v.store contents) k s
      ((v.candidates bytewiseComparator k (lookupKey k s)).findSome? answer) := by
  rw [store_eq, Version.candidates, findSome?_append]
  have hlev : ∀ level ∈ Version.deeperLevels, 0 < level ∧ level < numLevels :=
    fun _ => Version.mem_deeperLevels.mp
  refine Answers.orElse ?_ (h.answers_level0Candidates (hanswer 0 (by decide)))
    (answers_filterMap ?_ fun level hmem => ?_)
  · rintro a ha b ⟨⟨level, hmem, hb⟩, hnot⟩
    exact h.levels level (hlev level hmem).2 0 (hlev level hmem).1 a ha b ⟨hb, hnot⟩
  · have hlt : Version.deeperLevels.Pairwise (· < ·) := by decide
    refine hlt.imp_of_mem fun {upper level} _ hmem hlt => ?_
    exact h.levels level (hlev level hmem).2 upper hlt
  · obtain ⟨hpos, hlt⟩ := hlev level hmem
    exact answers_levelCandidate (h.files level hlt) (h.sorted level hlt hpos) hs
      (hanswer level hlt)

end RecencyOrder

/-- What a lookup in one table says about the entry that it finds. -/
def LookupResult.ofAnswer : Option Entry → LookupResult
  | none => .notFound
  | some e =>
    match e.live with
    | none => .deleted
    | some value => .found value

theorem searchFiles_eq {lookup : ℕ → Bytes → Result LookupResult} {ik : Bytes}
    (h : ∀ f ∈ files, lookup f.number ik = .ok (.ofAnswer (answer f))) :
    Version.searchFiles lookup ik files = .ok ((files.findSome? answer).bind Entry.live) := by
  induction files with
  | nil => rfl
  | cons f files ih =>
    obtain ⟨hf, hfiles⟩ := forall_mem_cons.mp h
    rw [Version.searchFiles, hf, findSome?_cons]
    rcases answer f with _ | e
    · exact ih hfiles
    · rcases hlive : e.live with _ | value <;> simp [LookupResult.ofAnswer, hlive]

/-- The lookup in a table finds the newest visible entry of the table. -/
def LookupOk (lookup : ℕ → Bytes → Result LookupResult) (contents : ℕ → List Entry)
    (f : FileMetaData) : Prop :=
  ∀ k s, s ≤ maxSequenceNumber →
    ∃ o, Answers Entry.key Entry.sequence (fileStore contents f) k s o ∧
      lookup f.number (lookupKey k s) = .ok (.ofAnswer o)

/-- A table is searched by a seek: the first entry that is not before the lookup key, if it has the
key. -/
def lookupIn (contents : ℕ → List Entry) (number : ℕ) (ik : Bytes) : Result LookupResult :=
  .ok (.ofAnswer (((contents number).find? fun e => decide (ikOrd ik ≤ ikOrd e.ik)).filter
    fun e => e.key = userKey ik))

theorem lookupIn_lookupKey (number : ℕ) (k : Bytes) (s : ℕ) :
    lookupIn contents number (lookupKey k s) = .ok (.ofAnswer (seekKey (contents number) k s)) := by
  rw [lookupIn, lookupKey, userKey_internalKey]
  rfl

theorem FileOk.lookupOk (h : FileOk (contents f.number) f) :
    LookupOk (lookupIn contents) contents f := fun k s hs =>
  ⟨_, answers_seek (h.sorted.imp fun hlt => hlt.le) h.valid hs, lookupIn_lookupKey f.number k s⟩

theorem Version.mem_of_mem_candidates {c : Comparator} {key ik : Bytes}
    (h : f ∈ v.candidates c key ik) :
    ∃ level < numLevels, f ∈ v.files level := by
  rcases mem_append.mp h with h | h
  · have hmem := (perm_insertionSort _ _).mem_iff.mp h
    exact ⟨0, by decide, mem_of_mem_filter hmem⟩
  · obtain ⟨level, hlev, hc⟩ := mem_filterMap.mp h
    refine ⟨level, (mem_deeperLevels.mp hlev).2, ?_⟩
    unfold levelCandidate at hc
    split at hc
    · cases hc
    · rename_i g hg
      split_ifs at hc
      obtain rfl := Option.some.inj hc
      exact mem_of_getElem? hg

/-- **`Version::get` reads the newest visible entry.** -/
theorem RecencyOrder.get_spec {lookup : ℕ → Bytes → Result LookupResult}
    (h : RecencyOrder v contents)
    (hlook : ∀ level < numLevels, ∀ f ∈ v.files level, LookupOk lookup contents f)
    (hs : s ≤ maxSequenceNumber) (k : Bytes) :
    ∃ o, Answers Entry.key Entry.sequence (v.store contents) k s o ∧
      v.get bytewiseComparator k (lookupKey k s) lookup = .ok (o.bind Entry.live) := by
  classical
  have hchoice : ∀ f : FileMetaData, ∃ o, (∃ level < numLevels, f ∈ v.files level) →
      Answers Entry.key Entry.sequence (fileStore contents f) k s o ∧
        lookup f.number (lookupKey k s) = .ok (.ofAnswer o) := by
    intro f
    by_cases hf : ∃ level < numLevels, f ∈ v.files level
    · obtain ⟨level, hlev, hmem⟩ := hf
      obtain ⟨o, ho⟩ := hlook level hlev f hmem k s hs
      exact ⟨o, fun _ => ho⟩
    · exact ⟨none, fun h => absurd h hf⟩
  choose answer hanswer using hchoice
  refine ⟨_, @RecencyOrder.answers_candidates contents k s answer v h hs fun level hlev f hf =>
    (hanswer f ⟨level, hlev, hf⟩).1, ?_⟩
  rw [Version.get, searchFiles_eq fun f hf => (hanswer f (Version.mem_of_mem_candidates hf)).2]

/-! ### Level 0 alone -/

/-- What a search is told that stops at the first run with an entry of the key. -/
def ReadsFirst (runs : List (List Entry)) (k : Bytes) (r : Option Bytes) : Prop :=
  match runs.find? fun entries => entries.any fun e => e.key = k with
  | none => r = none
  | some entries => ReadsLatest Entry.key Entry.sequence Entry.live (storeOf entries) k r

theorem readsFirst_cons {entries : List Entry} :
    ReadsFirst (entries :: runs) k r ↔
      if entries.any fun e => e.key = k then
        ReadsLatest Entry.key Entry.sequence Entry.live (storeOf entries) k r
      else ReadsFirst runs k r := by
  unfold ReadsFirst
  rw [find?_cons]
  rcases entries.any fun e => e.key = k <;> rfl

/-- The order within a run does not matter. -/
theorem readsFirst_congr {runs' : List (List Entry)} (h : List.Forall₂ List.Perm runs runs') :
    ReadsFirst runs k r ↔ ReadsFirst runs' k r := by
  induction h with
  | nil => rfl
  | cons hperm _ ih =>
    rw [readsFirst_cons, readsFirst_cons, ih, hperm.any_eq, storeOf, storeOf]
    simp only [hperm.mem_iff]

/-- Nor do empty runs. -/
theorem readsFirst_filter : ReadsFirst (runs.filter (· ≠ [])) k r ↔ ReadsFirst runs k r := by
  induction runs with
  | nil => rfl
  | cons entries runs ih =>
    rcases entries with _ | ⟨e, entries⟩
    · rw [readsFirst_cons]
      exact ih
    · rw [filter_cons_of_pos (by simp), readsFirst_cons, readsFirst_cons, ih]

/-- The candidates at level 0, when the files have different numbers. -/
theorem Version.level0Candidates_eq {c : Comparator} (hperm : (v.files 0).Perm order)
    (hord : order.Pairwise fun f g => g.number < f.number) :
    v.level0Candidates c k = order.filter (covers c k) := by
  have hnodup : (order.map (·.number)).Nodup := pairwise_map.mpr (hord.imp fun hlt => hlt.ne')
  have hcandidates := (perm_insertionSort (fun a b : FileMetaData => b.number ≤ a.number)
    ((v.files 0).filter (covers c k))).trans (hperm.filter _)
  refine List.Perm.eq_of_pairwise (fun f g hf hg hle hge => ?_) (pairwise_insertionSort _ _)
    ((hord.filter _).imp fun hlt => hlt.le) hcandidates
  exact inj_on_of_nodup_map hnodup (mem_of_mem_filter (hcandidates.mem_iff.mp hf))
    (mem_of_mem_filter hg) (le_antisymm hge hle)

/-- An answer of a run that a read sees whole. -/
theorem reads_seekKey {entries : List Entry}
    (hsort : entries.Pairwise fun a b => ikOrd a.ik ≤ ikOrd b.ik)
    (hvalid : ∀ e ∈ entries, e.Valid) (hs : s ≤ maxSequenceNumber)
    (hvis : ∀ e ∈ entries, e.sequence ≤ s) :
    ((seekKey entries k s).isSome ↔ entries.any fun e => e.key = k) ∧
      ReadsLatest Entry.key Entry.sequence Entry.live (storeOf entries) k
        ((seekKey entries k s).bind Entry.live) := by
  have hans := answers_seek (k := k) hsort hvalid hs
  refine ⟨?_, Reads.latest hvis ⟨_, hans, rfl⟩⟩
  rw [any_eq_true]
  rcases hseek : seekKey entries k s with _ | e
  · rw [hseek] at hans
    have hnot : ∀ e ∈ entries, e.key ≠ k := fun e he hk => hans e he hk (hvis e he)
    simpa using hnot
  · rw [hseek] at hans
    simpa using ⟨e, hans.1, hans.2.1⟩

/-- The first file that covers the key and answers is the first with an entry of the key. -/
private theorem readsFirst_findSome? (hok : ∀ f ∈ order, FileOk (contents f.number) f)
    (hs : s ≤ maxSequenceNumber) (hvis : ∀ f ∈ order, ∀ e ∈ contents f.number, e.sequence ≤ s) :
    ReadsFirst (order.map fun f => contents f.number) k
      (((order.filter (Version.covers bytewiseComparator k)).findSome? fun f =>
        seekKey (contents f.number) k s).bind Entry.live) := by
  induction order with
  | nil => exact rfl
  | cons f order ih =>
    obtain ⟨hf, hok⟩ := forall_mem_cons.mp hok
    obtain ⟨hfst, hvis⟩ := forall_mem_cons.mp hvis
    obtain ⟨hsome, hread⟩ :=
      reads_seekKey (k := k) (hf.sorted.imp fun hlt => hlt.le) hf.valid hs hfst
    rw [map_cons, readsFirst_cons]
    split_ifs with hany
    · obtain ⟨e, he⟩ := Option.isSome_iff_exists.mp (hsome.mpr hany)
      obtain ⟨e', he', hk⟩ := any_eq_true.mp hany
      rw [filter_cons_of_pos (Version.covers_of_mem hf he' (of_decide_eq_true hk)),
        findSome?_cons, he]
      rwa [he] at hread
    · have hnone : seekKey (contents f.number) k s = none := by
        rwa [← hsome, Option.not_isSome_iff_eq_none] at hany
      rw [filter_cons]
      split_ifs
      · rw [findSome?_cons, hnone]
        exact ih hok hvis
      · exact ih hok hvis

/-- **A version with files at level 0 only** is read in the order of the file numbers. -/
theorem Version.get_level0 (hperm : (v.files 0).Perm order)
    (hord : order.Pairwise fun f g => g.number < f.number)
    (hdeeper : ∀ level < numLevels, 0 < level → v.files level = [])
    (hok : ∀ f ∈ order, FileOk (contents f.number) f) (hs : s ≤ maxSequenceNumber)
    (hvis : ∀ f ∈ order, ∀ e ∈ contents f.number, e.sequence ≤ s) (k : Bytes) :
    ∃ r, v.get bytewiseComparator k (lookupKey k s) (lookupIn contents) = .ok r ∧
      ReadsFirst (order.map fun f => contents f.number) k r := by
  have hnone : deeperLevels.filterMap (v.levelCandidate bytewiseComparator k (lookupKey k s)) =
      [] := by
    refine filterMap_eq_nil_iff.mpr fun level hlev => ?_
    obtain ⟨hpos, hlt⟩ := mem_deeperLevels.mp hlev
    rw [levelCandidate, hdeeper level hlt hpos]
    rfl
  refine ⟨_, ?_, readsFirst_findSome? hok hs hvis⟩
  rw [get, candidates, hnone, append_nil, level0Candidates_eq hperm hord,
    searchFiles_eq fun f _ => lookupIn_lookupKey f.number k s]

end Search
end PulsearcDb
