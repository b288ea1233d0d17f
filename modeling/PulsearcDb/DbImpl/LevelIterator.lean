import PulsearcDb.TwoLevelIter
import PulsearcDb.VersionSet.Search

/-!
# The iterator of a level

The files of a level from 1 on lie one behind the other, so that a level is read like a table: an
index of the files, which is the `LevelFileNumIter` of `db_impl/db_impl.rs`, and the tables as its
blocks.

`LevelFileNumIter` is a cursor over the files by their largest keys (`LevelFileNumIter.sound`), and
a two-level iterator over any index that is a cursor, this one included, is a cursor over the blocks
one after the other.
-/

namespace PulsearcDb

open Cursor PartitionPoint IndexedBlock List

/-- `struct LevelFileNumIter`. -/
structure LevelFileNumIter (c : Comparator) where
  files : List FileMetaData
  pos : ℤ := -1
  value : Bytes := List.replicate 8 0

namespace LevelFileNumIter

variable {c : Comparator}

/-- The position is that of a file. -/
def valid (it : LevelFileNumIter c) : Bool := 0 ≤ it.pos ∧ it.pos.toNat < it.files.length

/-- The file that the iterator is at. -/
def current (it : LevelFileNumIter c) : Option FileMetaData :=
  if it.valid then it.files[it.pos.toNat]? else none

/-- The value is the number of the current file. -/
def refreshValue (it : LevelFileNumIter c) : LevelFileNumIter c :=
  match it.current with
  | some f => { it with value := putFixed64 f.number }
  | none => it

/-- Set the position and refresh the value. -/
def moveTo (it : LevelFileNumIter c) (pos : ℤ) : LevelFileNumIter c := { it with pos }.refreshValue

/-- Before the first file when there is none. -/
def seekToFirst (it : LevelFileNumIter c) : LevelFileNumIter c :=
  it.moveTo (if it.files = [] then -1 else 0)

/-- The last file, or -1. -/
def seekToLast (it : LevelFileNumIter c) : LevelFileNumIter c := it.moveTo (it.files.length - 1)

/-- The bisection is the one of `find_file`. -/
def seek (it : LevelFileNumIter c) (target : Bytes) : LevelFileNumIter c :=
  let left := findFile c it.files target
  it.moveTo (if left ≥ it.files.length then -1 else left)

/-- Behind the last file the position is -1. -/
def next (it : LevelFileNumIter c) : Option (LevelFileNumIter c) := do
  guard it.valid
  return it.moveTo (if (it.pos + 1).toNat ≥ it.files.length then -1 else it.pos + 1)

/-- Before the first file the position is -1. -/
def prev (it : LevelFileNumIter c) : Option (LevelFileNumIter c) := do
  guard it.valid
  return it.moveTo (it.pos - 1)

instance : DbIterator (LevelFileNumIter c) where
  valid := valid
  seekToFirst it := some it.seekToFirst
  seekToLast it := some it.seekToLast
  seek it target := some (it.seek target)
  next := next
  prev := prev
  key it := it.current.map FileMetaData.largest
  value it := it.current.map fun _ => it.value
  status _ := .ok ()

/-- The index entry of a file. -/
def fileEntry (f : FileMetaData) : Pair := (f.largest, putFixed64 f.number)

/-- The position as the cursor over the files has it. -/
def position : Option ℕ → ℤ
  | none => -1
  | some i => i

/-- The iterator is at a position, and has the number of the file there. -/
structure At (files : List FileMetaData) (it : LevelFileNumIter c) (p : Option ℕ) : Prop where
  files_eq : it.files = files
  pos_eq : it.pos = position p
  lt : ∀ i ∈ p, i < files.length
  value_eq : ∀ f ∈ entryAt files p, it.value = putFixed64 f.number

variable {files : List FileMetaData} {it : LevelFileNumIter c} {p : Option ℕ}

theorem At.valid_eq (h : At files it p) : it.valid = p.isSome := by
  rw [valid, h.pos_eq, h.files_eq]
  cases p with
  | none => rfl
  | some i => simpa [position] using h.lt i rfl

theorem At.current_eq (h : At files it p) : it.current = entryAt files p := by
  rw [current, h.valid_eq, h.pos_eq, h.files_eq]
  cases p with
  | none => rfl
  | some i => rfl

/-- A move to a position. -/
theorem At.moveTo (h : At files it p) {q : Option ℕ} (hlt : ∀ i ∈ q, i < files.length) {pos : ℤ}
    (hpos : pos = position q) : At files (it.moveTo pos) q := by
  have hvalid : ({ it with pos } : LevelFileNumIter c).valid = q.isSome := by
    rw [valid, hpos, h.files_eq]
    cases q with
    | none => rfl
    | some i => simpa [position] using hlt i rfl
  have hcur : ({ it with pos } : LevelFileNumIter c).current = entryAt files q := by
    rw [current, hvalid, hpos, h.files_eq]
    cases q with
    | none => rfl
    | some i => rfl
  rw [LevelFileNumIter.moveTo, refreshValue, hcur]
  rcases hentry : entryAt files q with _ | f
  · exact ⟨h.files_eq, hpos, hlt, fun f hf => by rw [hentry] at hf; cases hf⟩
  · exact ⟨h.files_eq, hpos, hlt, fun f' hf => by rw [hentry] at hf; cases hf; rfl⟩

theorem At.showsOk (h : At files it p) :
    DbIterator.ShowsOk it (entryAt (files.map fileEntry) p) := by
  refine ⟨?_, rfl⟩
  cases p with
  | none => exact h.valid_eq
  | some i =>
    have hlt := h.lt i rfl
    have hentry : entryAt files (some i) = some files[i] := getElem?_eq_getElem hlt
    have hcur := h.current_eq.trans hentry
    have hshown : entryAt (files.map fileEntry) (some i) = some (fileEntry files[i]) := by
      simp [entryAt, hlt]
    rw [hshown]
    refine ⟨h.valid_eq, congrArg (Option.map FileMetaData.largest) hcur, ?_⟩
    change it.current.map (fun _ => it.value) = some (putFixed64 files[i].number)
    rw [hcur, Option.map_some, h.value_eq _ hentry]

/-- The bisection finds the first file whose largest key reaches the target. -/
theorem findIdx?_fileEntry
    (hsort : files.Pairwise fun a b => icmp c a.largest b.largest = .lt) (target : Bytes) :
    (files.map fileEntry).findIdx? (fun e => (icmp c target e.1).isLE) =
      if findFile c files target < files.length then some (findFile c files target) else none := by
  have hreaches : ∀ f : FileMetaData, (icmp c target f.largest).isLE =
      !(icmp c f.largest target == .lt) := fun f => by
    have hswap : icmp c target f.largest = (icmp c f.largest target).swap := Std.OrientedCmp.eq_swap
    rw [hswap]
    cases icmp c f.largest target <;> rfl
  have hmono : files.Pairwise fun a b => (icmp c b.largest target == .lt) = true →
      (icmp c a.largest target == .lt) = true := hsort.imp fun {a b} hlt hb => by
    rw [beq_iff_eq] at hb ⊢
    exact Std.TransCmp.lt_trans hlt hb
  rw [findFile, ← findIdx?_not hmono, findIdx?_map]
  exact congrArg (List.findIdx? · files) (funext hreaches)

/-- **The files of a level are a cursor by their largest keys.** -/
theorem sound (hsort : files.Pairwise fun a b => icmp c a.largest b.largest = .lt) :
    DbIterator.Sound (icmp c) (files.map fileEntry) ({ files } : LevelFileNumIter c) := by
  refine lawful_of_simulates (At files) (fun hat => hat.showsOk) ?_
    ⟨rfl, rfl, fun _ hi => (by cases hi), fun _ hf => (by cases hf)⟩
  intro it p call hat hp hall
  -- every call is a move to the position that the cursor over the files goes to
  suffices hmove : ∃ pos, DbIterator.step it call = some (it.moveTo pos) ∧ pos = position (listStep
      (fun target e => (icmp c target e.1).isLE) (files.map fileEntry) p call) by
    obtain ⟨pos, hstep, hpos⟩ := hmove
    refine ⟨_, hstep, hat.moveTo (fun i hi => ?_) hpos⟩
    simpa using listStep_lt hp call i hi
  have hvalid := hat.valid_eq
  rw [← hat.files_eq] at hsort ⊢
  cases call with
  | seekToFirst =>
    refine ⟨_, rfl, ?_⟩
    rw [listStep, length_map]
    rcases it.files with _ | ⟨f, files⟩ <;> rfl
  | seekToLast =>
    refine ⟨_, rfl, ?_⟩
    rw [listStep, length_map]
    split_ifs with hpos
    · rw [position]
      omega
    · rw [position]
      omega
  | seek target =>
    refine ⟨_, rfl, ?_⟩
    rw [listStep, findIdx?_fileEntry hsort]
    rcases lt_or_ge (findFile c it.files target) it.files.length with hlt | hge
    · rw [if_neg hlt.not_ge, if_pos hlt, position]
    · rw [if_pos hge, if_neg hge.not_gt, position]
  | next =>
    obtain ⟨i, rfl⟩ := Option.isSome_iff_exists.mp hall
    have hpos : it.pos = i := hat.pos_eq
    refine ⟨if (it.pos + 1).toNat ≥ it.files.length then -1 else it.pos + 1, ?_, ?_⟩
    · change it.next = _
      rw [next, hvalid]
      rfl
    · rw [listStep, length_map, hpos]
      split_ifs with hge hlt hlt
      · omega
      · rfl
      · rfl
      · omega
  | prev =>
    obtain ⟨i, rfl⟩ := Option.isSome_iff_exists.mp hall
    have hpos : it.pos = i := hat.pos_eq
    refine ⟨it.pos - 1, ?_, ?_⟩
    · change it.prev = _
      rw [prev, hvalid]
      rfl
    · rw [listStep, hpos]
      split_ifs with hlt
      · rw [position]
        omega
      · rw [position]
        omega

end LevelFileNumIter

namespace TwoLevelIterator

variable {cmp : Compare} [Std.TransCmp cmp] {blocks : List IndexedBlock}

/-- The key of a block is before the entries of all blocks behind. -/
theorem key_lt_of_isChain {a : IndexedBlock}
    (hidx : (a :: blocks).Pairwise fun a b => cmp a.key b.key = .lt)
    (hnext : (a :: blocks).IsChain fun a b => ∀ e ∈ b.entries, cmp a.key e.1 = .lt) :
    ∀ b ∈ blocks, ∀ e ∈ b.entries, cmp a.key e.1 = .lt := by
  induction blocks generalizing a with
  | nil => exact fun b hb => absurd hb not_mem_nil
  | cons x blocks ih =>
    obtain ⟨hax, hnext⟩ := isChain_cons_cons.mp hnext
    obtain ⟨ha, hidx⟩ := pairwise_cons.mp hidx
    intro b hb e he
    rcases mem_cons.mp hb with rfl | hb
    · exact hax e he
    · exact Std.TransCmp.lt_trans (ha x mem_cons_self) (ih hidx hnext b hb e he)

theorem separated_of_isChain (hidx : blocks.Pairwise fun a b => cmp a.key b.key = .lt)
    (hsort : ∀ b ∈ blocks, Increasing cmp b.entries)
    (hle : ∀ b ∈ blocks, ∀ e ∈ b.entries, (cmp e.1 b.key).isLE)
    (hnext : blocks.IsChain fun a b => ∀ e ∈ b.entries, cmp a.key e.1 = .lt)
    (hnodup : (blocks.map handle).Nodup) : Separated cmp blocks where
  sorted := hsort
  le_key := hle
  nodup := hnodup
  key_lt := by
    clear hsort hle hnodup
    induction blocks with
    | nil => exact .nil
    | cons a blocks ih =>
      have hbehind := key_lt_of_isChain hidx hnext
      obtain ⟨ha, hidx⟩ := pairwise_cons.mp hidx
      exact .cons (fun b hb => ⟨ha b hb, hbehind b hb⟩) (ih hidx hnext.of_cons)

/-- **A two-level iterator is a cursor over the blocks one after the other**, for every index that
is a cursor, and for the files of a level. -/
theorem lawful_allEntries (hidx : blocks.Pairwise fun a b => cmp a.key b.key = .lt)
    (hsort : ∀ b ∈ blocks, Increasing cmp b.entries)
    (hle : ∀ b ∈ blocks, ∀ e ∈ b.entries, (cmp e.1 b.key).isLE)
    (hnext : blocks.IsChain fun a b => ∀ e ∈ b.entries, cmp a.key e.1 = .lt)
    (hnodup : (blocks.map handle).Nodup) {I : Type} [DbIterator I]
    {blockFunction : Bytes → Result I}
    (hopens : ∀ b ∈ blocks, ∃ d, blockFunction b.handle = .ok d ∧ DbIterator.Sound cmp b.entries d)
    {rounds : ℕ} (hrounds : blocks.length < rounds) :
    (∀ (O : Type) [DbIterator O] (indexIter : O),
      DbIterator.Sound cmp (blocks.map indexEntry) indexIter →
      DbIterator.Lawful cmp (allEntries blocks)
        ({ indexIter, blockFunction, rounds } : TwoLevelIterator O I)) ∧
    ∀ (c : Comparator) (files : List FileMetaData), icmp c = cmp →
      blocks.map indexEntry = files.map LevelFileNumIter.fileEntry →
      DbIterator.Lawful cmp (allEntries blocks)
        ({ indexIter := { files }, blockFunction, rounds } :
          TwoLevelIterator (LevelFileNumIter c) I) := by
  have hsep := separated_of_isChain hidx hsort hle hnext hnodup
  have hlawful : ∀ (O : Type) [DbIterator O] (indexIter : O),
      DbIterator.Sound cmp (blocks.map indexEntry) indexIter →
      DbIterator.Lawful cmp (allEntries blocks)
        ({ indexIter, blockFunction, rounds } : TwoLevelIterator O I) :=
    fun O _ indexIter hsound => (sound hsep hsound hopens hrounds).lawful
  refine ⟨hlawful, ?_⟩
  rintro c files rfl hfiles
  refine hlawful (LevelFileNumIter c) { files } ?_
  rw [hfiles]
  refine LevelFileNumIter.sound ?_
  have hkeys : Increasing (icmp c) (blocks.map indexEntry) := pairwise_map.mpr hidx
  rw [hfiles] at hkeys
  exact pairwise_map.mp hkeys

/-- Three files of a level, of which the second one has no entry. -/
def levelOfThree : List IndexedBlock :=
  [⟨internalKey [97] 2 .value, putFixed64 5, [(internalKey [97] 2 .value, [1])]⟩,
    ⟨internalKey [98] 1 .value, putFixed64 6, []⟩,
    ⟨internalKey [99] 3 .deletion, putFixed64 7, [(internalKey [99] 3 .deletion, [])]⟩]

/-- The tables of these files, by their handles. -/
def tableOfThree (handle : Bytes) : Result (ListCursor (icmp bytewiseComparator)) :=
  .ok ⟨(levelOfThree.filter fun b => b.handle = handle).flatMap entries, none⟩

theorem lawful_levelOfThree :
    DbIterator.Lawful (icmp bytewiseComparator)
      [(internalKey [97] 2 .value, [1]), (internalKey [99] 3 .deletion, [])]
      ({ indexIter := { files := [⟨5, 0, internalKey [97] 2 .value, internalKey [97] 2 .value⟩,
          ⟨6, 0, internalKey [98] 1 .value, internalKey [98] 1 .value⟩,
          ⟨7, 0, internalKey [99] 3 .deletion, internalKey [99] 3 .deletion⟩] }
         blockFunction := tableOfThree
         rounds := 4 } : TwoLevelIterator (LevelFileNumIter bytewiseComparator)
           (ListCursor (icmp bytewiseComparator))) := by
  have hents : ∀ b ∈ levelOfThree,
      (levelOfThree.filter fun b' => b'.handle = b.handle).flatMap entries = b.entries := by
    decide +kernel
  refine (@lawful_allEntries (icmp bytewiseComparator) _ levelOfThree (by decide +kernel)
    (by decide +kernel) (by decide +kernel) ?_ (by decide +kernel) _ _ tableOfThree ?_ 4
    (by decide)).2 bytewiseComparator _ rfl rfl
  · refine .cons_cons (fun e he => absurd he not_mem_nil)
      (.cons_cons (fun e he => ?_) (.singleton _))
    rw [mem_singleton.mp he]
    decide +kernel
  · intro b hb
    refine ⟨_, rfl, ?_⟩
    rw [hents b hb]
    exact ListCursor.sound_listCursor b.entries

end TwoLevelIterator

end PulsearcDb
