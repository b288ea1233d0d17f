import PulsearcDb.VersionSet.Picking
import Mathlib.Data.List.Flatten

/-!
# Merging the inputs of a compaction

The merge of `do_compaction_work_async` (`db_impl/db_impl.rs`): the entries of all inputs are
sorted, superseded entries and tombstones with nothing below them are dropped, and the others go to
new tables. A table is finished as soon as its builder reports the target size, which may be between
two entries of one user key.

How large a table is depends on the block size, the filter policy and the compressor of the options,
the latter two being code of the caller. A `Sizing` stands for them.

`tables_mergeEntries` says what the loop computes: the new tables, one behind the other, hold the
entries that `kept` selects.
-/

namespace PulsearcDb

open List

/-- The size that `TableFileBuilder` reports for a table with the given entries, before and after it
is finished. -/
structure Sizing where
  growing : List Entry → ℕ
  finished : List Entry → ℕ

/-- A table under construction, or a finished one. -/
structure TableOutput where
  number : ℕ
  smallest : Bytes
  largest : Bytes
  entries : List Entry

namespace TableOutput

/-- `finish_compaction_output_async`. -/
def metadata (sizing : Sizing) (t : TableOutput) : FileMetaData :=
  { number := t.number, fileSize := sizing.finished t.entries
    smallest := t.smallest, largest := t.largest }

/-- A new table with its first entry. -/
def single (number : ℕ) (e : Entry) : TableOutput :=
  { number, smallest := e.ik, largest := e.ik, entries := [e] }

/-- `TableFileBuilder::add`, on the entries. -/
def add (t : TableOutput) (e : Entry) : TableOutput :=
  { t with largest := e.ik, entries := t.entries ++ [e] }

end TableOutput

/-- The variables of the merge loop. -/
structure MergeState where
  outputs : List TableOutput := []
  builder : Option TableOutput := none
  lastUserKey : Option Bytes := none
  lastSequenceForKey : ℕ := 2 ^ 64 - 1
  nextFileNumber : ℕ

/-- Whether an entry is dropped, given the user key and the sequence number of the one before it. -/
def dropsEntry (isBase : Bytes → Bool) (smallestSnapshot : ℕ) (lastUserKey : Option Bytes)
    (lastSequenceForKey : ℕ) (e : Entry) : Bool :=
  decide
      ((if lastUserKey = some e.key then lastSequenceForKey else 2 ^ 64 - 1) ≤ smallestSnapshot) ||
    (keyTypeByte e.ik == ValueType.deletion.toByte && decide (e.sequence ≤ smallestSnapshot) &&
      isBase e.key)

namespace MergeState

/-- A builder that reports the target size is finished. -/
def place (sizing : Sizing) (st : MergeState) (b : TableOutput) : MergeState :=
  if targetFileSize ≤ sizing.growing b.entries then
    { st with outputs := st.outputs ++ [b], builder := none }
  else { st with builder := some b }

/-- A new builder takes the next file number; `gap` numbers were given to others meanwhile. -/
def addEntry (sizing : Sizing) (gap : ℕ) (st : MergeState) (e : Entry) : MergeState :=
  match st.builder with
  | none =>
    place sizing { st with nextFileNumber := st.nextFileNumber + gap + 1 }
      (.single (st.nextFileNumber + gap) e)
  | some b => place sizing st (b.add e)

/-- One turn of the merge loop. -/
def step (sizing : Sizing) (gaps : ℕ → ℕ) (isBase : Bytes → Bool) (smallestSnapshot : ℕ)
    (st : MergeState) (e : Entry) : MergeState :=
  let seen := { st with lastUserKey := some e.key, lastSequenceForKey := e.sequence }
  if dropsEntry isBase smallestSnapshot st.lastUserKey st.lastSequenceForKey e then seen
  else seen.addEntry sizing (gaps st.outputs.length) e

/-- The finished tables and the one that is finished after the loop. -/
def tables (st : MergeState) : List TableOutput := st.outputs ++ st.builder.toList

/-- The entries that have gone to tables. -/
def entries (st : MergeState) : List Entry := st.tables.flatMap TableOutput.entries

end MergeState

/-- The merge loop over the sorted entries. -/
def mergeEntries (sizing : Sizing) (gaps : ℕ → ℕ) (isBase : Bytes → Bool)
    (smallestSnapshot nextFileNumber : ℕ) (entries : List Entry) : MergeState :=
  entries.foldl (MergeState.step sizing gaps isBase smallestSnapshot) { nextFileNumber }

/-- The entries of the inputs, sorted. -/
def Compaction.entries (c : Comparator) (contents : ℕ → List Entry) (x : Compaction) : List Entry :=
  ((x.inputs0 ++ x.inputs1).flatMap fun f => contents f.number).insertionSort
    fun a b => (icmp c a.ik b.ik).isLE = true

/-! ### What the loop keeps -/

/-- The entries that are not dropped, given the one before them. -/
def kept (isBase : Bytes → Bool) (smallestSnapshot : ℕ) : Option Bytes → ℕ → List Entry → List Entry
  | _, _, [] => []
  | lastUserKey, lastSequenceForKey, e :: entries =>
    if dropsEntry isBase smallestSnapshot lastUserKey lastSequenceForKey e then
      kept isBase smallestSnapshot (some e.key) e.sequence entries
    else e :: kept isBase smallestSnapshot (some e.key) e.sequence entries

theorem kept_sublist (isBase : Bytes → Bool) (smallestSnapshot : ℕ) (lastUserKey : Option Bytes)
    (lastSequenceForKey : ℕ) (entries : List Entry) :
    (kept isBase smallestSnapshot lastUserKey lastSequenceForKey entries).Sublist entries := by
  induction entries generalizing lastUserKey lastSequenceForKey with
  | nil => exact List.Sublist.slnil
  | cons e entries ih =>
    rw [kept]
    split_ifs
    · exact (ih _ _).cons e
    · exact (ih _ _).cons_cons e

/-- The bounds of a table are the keys of its first and its last entry. -/
structure TableOutput.Ok (t : TableOutput) : Prop where
  smallest : t.entries.head?.map Entry.ik = some t.smallest
  largest : t.entries.getLast?.map Entry.ik = some t.largest

/-- The tables of the loop are well formed and have new numbers. -/
structure MergeState.Ok (first : ℕ) (st : MergeState) : Prop where
  tables : ∀ t ∈ st.tables, t.Ok
  fresh : ∀ t ∈ st.tables, first ≤ t.number ∧ t.number < st.nextFileNumber
  numbers : st.tables.Pairwise fun t u => t.number < u.number
  next : first ≤ st.nextFileNumber

namespace MergeState

private theorem tables_place (sizing : Sizing) (st : MergeState) (b : TableOutput) :
    (st.place sizing b).tables = st.outputs ++ [b] ∧
      (st.place sizing b).nextFileNumber = st.nextFileNumber := by
  rw [place]
  split_ifs <;> simp [tables]

private theorem tables_addEntry_none {st : MergeState} (h : st.builder = none) (sizing : Sizing)
    (gap : ℕ) (e : Entry) :
    (st.addEntry sizing gap e).tables = st.tables ++ [.single (st.nextFileNumber + gap) e] ∧
      (st.addEntry sizing gap e).nextFileNumber = st.nextFileNumber + gap + 1 := by
  rw [addEntry, h]
  have hplace := tables_place sizing { st with nextFileNumber := st.nextFileNumber + gap + 1 }
    (.single (st.nextFileNumber + gap) e)
  simpa only [tables, h, Option.toList_none, append_nil] using hplace

private theorem tables_addEntry_some {st : MergeState} {b : TableOutput} (h : st.builder = some b)
    (sizing : Sizing) (gap : ℕ) (e : Entry) :
    (st.addEntry sizing gap e).tables = st.outputs ++ [b.add e] ∧
      (st.addEntry sizing gap e).nextFileNumber = st.nextFileNumber := by
  rw [addEntry, h]
  exact tables_place sizing st (b.add e)

private theorem flatMap_addEntry (sizing : Sizing) (gap : ℕ) (st : MergeState) (e : Entry) :
    (st.addEntry sizing gap e).tables.flatMap TableOutput.entries =
      st.tables.flatMap TableOutput.entries ++ [e] := by
  rcases hb : st.builder with _ | b
  · rw [(tables_addEntry_none hb sizing gap e).1, flatMap_append]
    rfl
  · rw [(tables_addEntry_some hb sizing gap e).1, tables, hb, flatMap_append,
      Option.toList_some, flatMap_append, append_assoc]
    simp [TableOutput.add]

private theorem last_addEntry (sizing : Sizing) (gap : ℕ) (st : MergeState) (e : Entry) :
    (st.addEntry sizing gap e).lastUserKey = st.lastUserKey ∧
      (st.addEntry sizing gap e).lastSequenceForKey = st.lastSequenceForKey := by
  rw [addEntry]
  split <;> rw [place] <;> split_ifs <;> exact ⟨rfl, rfl⟩

/-- **One turn of the loop keeps the tables well formed.** -/
private theorem Ok.addEntry {first : ℕ} {st : MergeState} (h : st.Ok first) (sizing : Sizing)
    (gap : ℕ) (e : Entry) : (st.addEntry sizing gap e).Ok first := by
  have hnext := h.next
  rcases hb : st.builder with _ | b
  · obtain ⟨htabs, hnum⟩ := tables_addEntry_none hb sizing gap e
    have hf : ∀ t ∈ st.tables, t.number < st.nextFileNumber + gap := fun t ht =>
      (h.fresh t ht).2.trans_le (Nat.le_add_right _ _)
    refine ⟨?_, ?_, ?_, by omega⟩ <;> rw [htabs]
    · exact forall_mem_append.mpr ⟨h.tables, forall_mem_singleton.mpr ⟨rfl, rfl⟩⟩
    · rw [hnum]
      refine forall_mem_append.mpr ⟨fun t ht => ?_, forall_mem_singleton.mpr ?_⟩
      · exact ⟨(h.fresh t ht).1, (hf t ht).trans (Nat.lt_succ_self _)⟩
      · exact ⟨hnext.trans (Nat.le_add_right _ _), Nat.lt_succ_self _⟩
    · refine pairwise_append.mpr ⟨h.numbers, pairwise_singleton _ _, fun t ht => ?_⟩
      exact forall_mem_singleton.mpr (hf t ht)
  · obtain ⟨htabs, hnum⟩ := tables_addEntry_some hb sizing gap e
    have hold : st.tables = st.outputs ++ [b] := by rw [MergeState.tables, hb, Option.toList_some]
    obtain ⟨hok, hf, hnums, -⟩ := h
    rw [hold] at hok hf hnums
    rw [forall_mem_append, forall_mem_singleton] at hok hf
    refine ⟨?_, ?_, ?_, by omega⟩ <;> rw [htabs]
    · refine forall_mem_append.mpr ⟨hok.1, forall_mem_singleton.mpr ⟨?_, ?_⟩⟩
      · obtain ⟨a, ha, hik⟩ := Option.map_eq_some_iff.mp hok.2.smallest
        simp [TableOutput.add, head?_append, ha, hik]
      · simp [TableOutput.add]
    · rw [hnum]
      exact forall_mem_append.mpr ⟨hf.1, forall_mem_singleton.mpr hf.2⟩
    · rw [pairwise_append] at hnums ⊢
      refine ⟨hnums.1, pairwise_singleton _ _, fun t ht => forall_mem_singleton.mpr ?_⟩
      exact hnums.2.2 t ht b mem_cons_self

private theorem foldl_step (sizing : Sizing) (gaps : ℕ → ℕ) (isBase : Bytes → Bool)
    (smallestSnapshot : ℕ) (entries : List Entry) {first : ℕ} {st : MergeState} (h : st.Ok first) :
    (entries.foldl (step sizing gaps isBase smallestSnapshot) st).Ok first ∧
      (entries.foldl (step sizing gaps isBase smallestSnapshot) st).tables.flatMap
          TableOutput.entries =
        st.tables.flatMap TableOutput.entries ++
          kept isBase smallestSnapshot st.lastUserKey st.lastSequenceForKey entries := by
  induction entries generalizing st with
  | nil => exact ⟨h, (append_nil _).symm⟩
  | cons e entries ih =>
    rw [foldl_cons, step, kept]
    split_ifs with hdrop
    · exact ih ⟨h.tables, h.fresh, h.numbers, h.next⟩
    · have hseen : MergeState.Ok first
          { st with lastUserKey := some e.key, lastSequenceForKey := e.sequence } :=
        ⟨h.tables, h.fresh, h.numbers, h.next⟩
      obtain ⟨hok, hflat⟩ := ih (hseen.addEntry sizing (gaps st.outputs.length) e)
      refine ⟨hok, ?_⟩
      rw [hflat, flatMap_addEntry, append_assoc, singleton_append,
        (last_addEntry _ _ _ _).1,
        (last_addEntry _ _ _ _).2]
      rfl

end MergeState

/-- **The new tables** are well formed, have new and increasing numbers, and hold the entries that
are kept. -/
theorem tables_mergeEntries (sizing : Sizing) (gaps : ℕ → ℕ) (isBase : Bytes → Bool)
    (smallestSnapshot nextFileNumber : ℕ) (entries : List Entry) :
    (mergeEntries sizing gaps isBase smallestSnapshot nextFileNumber entries).Ok nextFileNumber ∧
      (mergeEntries sizing gaps isBase smallestSnapshot nextFileNumber entries).tables.flatMap
        TableOutput.entries = kept isBase smallestSnapshot none (2 ^ 64 - 1) entries := by
  have hstart : MergeState.Ok nextFileNumber { nextFileNumber } :=
    { tables := fun _ ht => absurd ht not_mem_nil
      fresh := fun _ ht => absurd ht not_mem_nil
      numbers := List.Pairwise.nil
      next := le_rfl }
  exact MergeState.foldl_step sizing gaps isBase smallestSnapshot entries hstart

/-! ### Which entries are dropped -/

section Dropped

variable {isBase : Bytes → Bool} {smallestSnapshot : ℕ} {entries : List Entry} {e p : Entry}

/-- Behind an entry that every snapshot sees, the entries of its key are dropped. -/
private theorem notMem_kept_of_last
    (hsort : (p :: entries).Pairwise fun a b => ikOrd a.ik < ikOrd b.ik)
    (hp : p.sequence ≤ smallestSnapshot) (he : e ∈ entries) (hkey : p.key = e.key) :
    e ∉ kept isBase smallestSnapshot (some p.key) p.sequence entries := by
  induction entries generalizing p with
  | nil => cases he
  | cons a entries ih =>
    obtain ⟨hpa, hsort⟩ := pairwise_cons.mp hsort
    have ha := (pairwise_cons.mp hsort).1
    rw [kept]
    rcases mem_cons.mp he with rfl | he
    · have hdrop : dropsEntry isBase smallestSnapshot (some p.key) p.sequence e = true := by
        simp [dropsEntry, hkey, hp]
      rw [if_pos hdrop]
      exact fun h => lt_irrefl _ (ha e ((kept_sublist _ _ _ _ _).subset h))
    · have hkeya : a.key = e.key := by
        refine le_antisymm (userKey_le_of_ikOrd_le (ha e he).le) ?_
        rw [← hkey]
        exact userKey_le_of_ikOrd_le (hpa a mem_cons_self).le
      have hseq : a.sequence ≤ p.sequence :=
        Entry.sequence_le_of_ikOrd_le (hkey.trans hkeya.symm) (hpa a mem_cons_self).le
      have hrest := ih hsort (hseq.trans hp) he hkeya
      split_ifs
      · exact hrest
      · rw [mem_cons, not_or]
        exact ⟨fun h => lt_irrefl _ (h ▸ ha e he), hrest⟩

section

variable (hsort : entries.Pairwise fun a b => ikOrd a.ik < ikOrd b.ik)
include hsort

/-- **A superseded entry is dropped** once the newer one is visible to every snapshot. -/
theorem notMem_kept
    (hp : p ∈ entries) (he : e ∈ entries) (hlt : ikOrd p.ik < ikOrd e.ik) (hkey : p.key = e.key)
    (hseq : p.sequence ≤ smallestSnapshot) (lastUserKey : Option Bytes) (lastSequenceForKey : ℕ) :
    e ∉ kept isBase smallestSnapshot lastUserKey lastSequenceForKey entries := by
  induction entries generalizing lastUserKey lastSequenceForKey with
  | nil => cases he
  | cons a entries ih =>
    have hsort' := pairwise_cons.mp hsort
    have hne : e ≠ a := by
      rintro rfl
      rcases mem_cons.mp hp with rfl | hp
      · exact lt_irrefl _ hlt
      · exact lt_asymm hlt (hsort'.1 p hp)
    have he' := (mem_cons.mp he).resolve_left hne
    have hrest : e ∉ kept isBase smallestSnapshot (some a.key) a.sequence entries := by
      rcases mem_cons.mp hp with rfl | hp
      · exact notMem_kept_of_last hsort hseq he' hkey
      · exact ih hsort'.2 hp he' _ _
    rw [kept]
    split_ifs
    · exact hrest
    · rw [mem_cons, not_or]
      exact ⟨hne, hrest⟩

/-- **Why an entry is dropped**: it is superseded, or it is a tombstone with nothing below it. -/
theorem of_notMem_kept (hsnap : smallestSnapshot < 2 ^ 64 - 1) (he : e ∈ entries)
    {lastUserKey : Option Bytes} {lastSequenceForKey : ℕ}
    (h : e ∉ kept isBase smallestSnapshot lastUserKey lastSequenceForKey entries) :
    (lastUserKey = some e.key ∧ lastSequenceForKey ≤ smallestSnapshot) ∨
      (∃ p ∈ entries, ikOrd p.ik < ikOrd e.ik ∧ p.key = e.key ∧ p.sequence ≤ smallestSnapshot) ∨
      (e.live = none ∧ e.sequence ≤ smallestSnapshot ∧ isBase e.key = true) := by
  induction entries generalizing lastUserKey lastSequenceForKey with
  | nil => cases he
  | cons a entries ih =>
    obtain ⟨ha, hsort⟩ := pairwise_cons.mp hsort
    rw [kept] at h
    rcases mem_cons.mp he with rfl | he
    · split_ifs at h with hdrop
      · rw [dropsEntry, Bool.or_eq_true, decide_eq_true_iff] at hdrop
        rcases hdrop with hdrop | hdrop
        · split_ifs at hdrop with hlast
          · exact .inl ⟨hlast, hdrop⟩
          · omega
        · simp only [Bool.and_eq_true, beq_iff_eq, decide_eq_true_iff] at hdrop
          exact .inr (.inr ⟨if_pos hdrop.1.1, hdrop.1.2, hdrop.2⟩)
      · exact absurd mem_cons_self h
    · have hrest : e ∉ kept isBase smallestSnapshot (some a.key) a.sequence entries := by
        split_ifs at h
        · exact h
        · exact fun hmem => h (mem_cons_of_mem a hmem)
      rcases ih hsort he hrest with ⟨hkey, hseq⟩ | ⟨p, hp, hbefore⟩ | htomb
      · exact .inr (.inl ⟨a, mem_cons_self, ha e he, Option.some.inj hkey, hseq⟩)
      · exact .inr (.inl ⟨p, mem_cons_of_mem a hp, hbefore⟩)
      · exact .inr (.inr htomb)

/-- The newest entry of a key with at most a sequence number: the first one in the order of
a run. -/
def newestEntry (entries : List Entry) (k : Bytes) (s : ℕ) : Option Entry :=
  entries.find? fun e => e.key == k && decide (e.sequence ≤ s)

theorem newestEntry_eq_some_iff {k : Bytes} {s : ℕ} :
    newestEntry entries k s = some e ↔ e ∈ entries ∧ e.key = k ∧ e.sequence ≤ s ∧
      ∀ e' ∈ entries, e'.key = k → e'.sequence ≤ s → ikOrd e.ik ≤ ikOrd e'.ik := by
  induction entries with
  | nil => simp [newestEntry]
  | cons a entries ih =>
    obtain ⟨ha, hsort⟩ := pairwise_cons.mp hsort
    have hrest := ih hsort
    by_cases hvis : a.key = k ∧ a.sequence ≤ s
    · have hfst : newestEntry (a :: entries) k s = some a := find?_cons_of_pos (by simpa using hvis)
      rw [hfst, Option.some.injEq]
      constructor
      · rintro rfl
        refine ⟨mem_cons_self, hvis.1, hvis.2, ?_⟩
        rintro e' (_ | ⟨_, he'⟩) - -
        · exact le_rfl
        · exact (ha e' he').le
      · rintro ⟨he, -, -, hle⟩
        rcases mem_cons.mp he with rfl | he
        · rfl
        · exact absurd (ha e he) (not_lt.mpr (hle a mem_cons_self hvis.1 hvis.2))
    · have hskip : newestEntry (a :: entries) k s = newestEntry entries k s :=
        find?_cons_of_neg (by simpa using hvis)
      rw [hskip, hrest]
      constructor
      · rintro ⟨he, hkey, hseq, hle⟩
        refine ⟨mem_cons_of_mem a he, hkey, hseq, ?_⟩
        rintro e' (_ | ⟨_, he'⟩) hkey' hseq'
        · exact absurd ⟨hkey', hseq'⟩ hvis
        · exact hle e' he' hkey' hseq'
      · rintro ⟨he, hkey, hseq, hle⟩
        rcases mem_cons.mp he with rfl | he
        · exact absurd ⟨hkey, hseq⟩ hvis
        · exact ⟨he, hkey, hseq, fun e' he' => hle e' (mem_cons_of_mem a he')⟩

end

/-- **The drop rule loses nothing visible.** The tables of a merge hold a sublist of the entries. A
reader at or above the smallest snapshot finds the newest entry that it found before, except that a
tombstone may be gone when no deeper level covers its key and every snapshot sees it. -/
theorem newestEntry_mergeEntries (sizing : Sizing) (gaps : ℕ → ℕ) (nextFileNumber : ℕ)
    (hsort : entries.Pairwise fun a b => ikOrd a.ik < ikOrd b.ik)
    (hsnap : smallestSnapshot < 2 ^ 64 - 1) :
    let output := (mergeEntries sizing gaps isBase smallestSnapshot nextFileNumber entries).entries
    output.Sublist entries ∧ ∀ k s, smallestSnapshot ≤ s →
      ∀ e, newestEntry entries k s = some e →
        newestEntry output k s = some e ∨
          keyTypeByte e.ik = ValueType.deletion.toByte ∧ e.sequence ≤ smallestSnapshot ∧
            isBase k = true ∧ newestEntry output k s = none := by
  intro output
  have houtput : output = kept isBase smallestSnapshot none (2 ^ 64 - 1) entries :=
    (tables_mergeEntries sizing gaps isBase smallestSnapshot nextFileNumber entries).2
  have hsublist : output.Sublist entries := houtput ▸ kept_sublist _ _ _ _ _
  refine ⟨hsublist, fun k s hs e he => ?_⟩
  obtain ⟨hmem, hkey, hseq, hnewest⟩ := (newestEntry_eq_some_iff hsort).mp he
  by_cases hkept : e ∈ output
  · refine .inl ((newestEntry_eq_some_iff (hsort.sublist hsublist)).mpr ⟨hkept, hkey, hseq, ?_⟩)
    exact fun e' he' => hnewest e' (hsublist.subset he')
  · right
    rw [houtput] at hkept
    rcases of_notMem_kept hsort hsnap hmem hkept with
      ⟨hlast, -⟩ | ⟨p, hp, hlt, hpkey, hpseq⟩ |
      ⟨htombstone, hvis, hbase⟩
    · cases hlast
    · exact absurd hlt (not_lt.mpr (hnewest p hp (hpkey.trans hkey) (hpseq.trans hs)))
    · refine ⟨?_, hvis, hkey ▸ hbase, ?_⟩
      · by_contra htype
        rw [Entry.live, if_neg htype] at htombstone
        cases htombstone
      · rw [newestEntry, find?_eq_none]
        intro e' he' hmatch
        simp only [Bool.and_eq_true, beq_iff_eq, decide_eq_true_eq] at hmatch
        have hmem' := hsublist.subset he'
        rw [houtput] at he'
        have hle := hnewest e' hmem' hmatch.1 hmatch.2
        have hlt : ikOrd e.ik < ikOrd e'.ik := by
          refine lt_of_le_of_ne hle fun heq => hkept ?_
          rwa [Entry.eq_of_pairwise_lt hsort hmem hmem' heq]
        exact notMem_kept hsort hmem hmem' hlt (hkey.trans hmatch.1.symm) hvis _ _ he'

/-- A tombstone over an older value, with nothing below them. -/
def coveredValue : List Entry :=
  [⟨internalKey [107] 3 .deletion, []⟩, ⟨internalKey [107] 1 .value, [1]⟩]

/-- Neither of the two entries is kept, and the key is still deleted. -/
theorem newestEntry_coveredValue :
    newestEntry coveredValue [107] 7 = some ⟨internalKey [107] 3 .deletion, []⟩ ∧
      newestEntry (mergeEntries ⟨fun _ => 0, fun _ => 0⟩ (fun _ => 0) (fun _ => true) 5 2
        coveredValue).entries [107] 7 = none := by
  have hsort : coveredValue.Pairwise fun a b => ikOrd a.ik < ikOrd b.ik := by decide +kernel
  have hmerge := (@newestEntry_mergeEntries (fun _ => true) 5 coveredValue
    ⟨fun _ => 0, fun _ => 0⟩ (fun _ => 0) 2 hsort (by decide)).2 [107] 7 (by decide) _ rfl
  refine ⟨rfl, ?_⟩
  rcases hmerge with hkept | hdropped
  · exact absurd hkept (by decide +kernel)
  · exact hdropped.2.2.2

end Dropped

end PulsearcDb
