import PulsearcDb.DbImpl.LsmReads
import PulsearcDb.DbImpl.Read

/-!
# A flush of any ordered state

A read asks the memtable, the immutable memtable and the tables, and relies on the order of these
layers (`ReadView.LayersOrdered`). A flush turns the immutable memtable into a table. From any
ordered state (`Lsm.Ordered`), reachable or not, the layers are ordered again after it, they hold
the same entries, and so no read at any snapshot changes.
-/

namespace PulsearcDb

open Recency

namespace Lsm

/-- What a read looks at. -/
def view (st : Lsm bytewiseComparator) : ReadView bytewiseComparator where
  mem := st.mem
  imm := st.imm
  version := st.version
  lastSequence := st.lastSequence

/-- The layers of a read are newest first, file numbers grow, and the immutable memtable has no
entry twice. -/
structure Ordered (st : Lsm bytewiseComparator) : Prop where
  layers : st.view.LayersOrdered st.contents
  fresh : ∀ level < numLevels, ∀ f ∈ st.version.files level, f.number < st.nextFileNumber
  nodup : ∀ m ∈ st.imm, m.entries.Nodup

variable {sizing : Sizing} {st st' : Lsm bytewiseComparator} {m : MemTable bytewiseComparator}
  {first last : Entry} {s : ℕ}

theorem immStore_of_some (himm : st.imm = some m) : st.view.immStore = storeOf m.entries := by
  ext e
  simp [ReadView.immStore, view, himm, storeOf]

theorem immStore_of_none (himm : st.imm = none) : st.view.immStore = ∅ := by
  ext e
  simp [ReadView.immStore, view, himm]

/-- A read returns the newest entry that it can see. -/
theorem Ordered.get_spec (h : Ordered st) (hs : s ≤ maxSequenceNumber) (k : Bytes) :
    ∃ o, Answers Entry.key Entry.sequence (st.view.store st.contents) k s o ∧
      st.view.get (lookupIn st.contents) (some s) k = .ok (o.bind Entry.live) :=
  ReadView.get_spec h.layers
    (fun level hlev f hf => (h.layers.tables.files level hlev f hf).lookupOk) hs k

/-- Two ordered states with the same entries answer alike. -/
theorem Ordered.get_congr (h : Ordered st) (h' : Ordered st')
    (hstore : st'.view.store st'.contents = st.view.store st.contents) (hs : s ≤ maxSequenceNumber)
    (k : Bytes) :
    st'.view.get (lookupIn st'.contents) (some s) k =
      st.view.get (lookupIn st.contents) (some s) k := by
  obtain ⟨o, ho, hget⟩ := h.get_spec hs k
  obtain ⟨o', ho', hget'⟩ := h'.get_spec hs k
  rw [hstore] at ho'
  rw [hget, hget', ho.unique h.layers.unique ho']

/-! ### The table of the flush -/

theorem Ordered.shadows (h : Ordered st) (himm : st.imm = some m) :
    Shadows Entry.key Entry.sequence (storeOf m.entries) (st.version.store st.contents) :=
  immStore_of_some himm ▸ h.layers.immTables

theorem Ordered.sorted (h : Ordered st) (himm : st.imm = some m) :
    m.entries.Pairwise fun a b => ikOrd a.ik < ikOrd b.ik := by
  refine Entry.pairwise_lt (m.sorted.imp fun hle => isLE_icmp_bytewise.mp hle) ?_
  refine (h.nodup m himm).imp_of_mem fun {a b} ha hb hne hkey hseq => hne ?_
  have himmStore : ∀ e ∈ m.entries, e ∈ st.view.store st.contents := fun e he =>
    .inr (.inl ⟨m, himm, he⟩)
  exact h.layers.unique a (himmStore a ha) b (himmStore b hb) hkey hseq

theorem Ordered.tops (h : Ordered st) (himm : st.imm = some m)
    (hfst : m.entries.head? = some first) (hlast : m.entries.getLast? = some last) :
    FlushTops sizing st m first last :=
  tops_flushEdit (h.layers.tables.files 0 (by decide)) h.fresh hfst hlast (h.sorted himm)
    (fun e he => h.layers.immValid e ⟨m, himm, he⟩) (h.shadows himm)

/-! ### The state after the flush -/

/-- A flush moves the entries of the immutable memtable into a table. -/
theorem Ordered.store_flush (h : Ordered st) :
    (st.flush sizing).view.store (st.flush sizing).contents = st.view.store st.contents := by
  rcases flush_cases sizing st with
    ⟨-, heq⟩ | ⟨m, himm, hnil, heq⟩ | ⟨m, first, last, himm, hfst, hlast, heq⟩
  · rw [heq]
  · have hempty : st.view.immStore = ∅ := by
      ext e
      simp [immStore_of_some himm, hnil, storeOf]
    rw [ReadView.store, ReadView.store, hempty, heq, immStore_of_none rfl]
    rfl
  · have htabs := (@Ordered.tops sizing st m first last h himm hfst hlast).store_table
    rw [ReadView.store, ReadView.store, immStore_of_some himm, heq, immStore_of_none rfl,
      Set.empty_union, Set.union_comm (storeOf m.entries)]
    exact congrArg (st.view.memStore ∪ ·) htabs

private theorem Ordered.fresh_flush (h : Ordered st) (himm : st.imm = some m)
    (hfst : m.entries.head? = some first) (hlast : m.entries.getLast? = some last) :
    ∀ level < numLevels, ∀ f ∈ (st.version.edited bytewiseComparator
      (st.flushEdit sizing m first last)).files level, f.number < st.nextFileNumber + 1 := by
  intro level hlev f hf
  rcases (h.tops himm hfst hlast).mem_files.mp hf with ⟨-, hold⟩ | ⟨-, hnew⟩
  · exact (h.fresh level hlev f hold).trans (Nat.lt_succ_self _)
  · rw [List.mem_singleton.mp hnew]
    exact Nat.lt_succ_self _

private theorem layersOrdered_of_none (himm : st.imm = none)
    (hvalid : ∀ e ∈ st.view.memStore, e.Valid)
    (hmem : Shadows Entry.key Entry.sequence st.view.memStore (st.version.store st.contents))
    (htabs : SearchOrder st.version st.contents)
    (huniq : OnePerSequence Entry.key Entry.sequence (st.view.store st.contents)) :
    st.view.LayersOrdered st.contents where
  memValid := hvalid
  immValid e he := absurd he (immStore_of_none himm ▸ Set.notMem_empty e)
  memImm _ _ e he := absurd he (immStore_of_none himm ▸ Set.notMem_empty e)
  memTables := hmem
  immTables e he := absurd he (immStore_of_none himm ▸ Set.notMem_empty e)
  tables := htabs
  unique := huniq

/-- **A flush keeps the layers in order.** -/
theorem Ordered.flush (h : Ordered st) : Ordered (st.flush sizing) := by
  have huniq := (@Ordered.store_flush sizing st h).symm ▸ h.layers.unique
  rcases flush_cases sizing st with
    ⟨-, heq⟩ | ⟨m, -, -, heq⟩ | ⟨m, first, last, himm, hfst, hlast, heq⟩
  · rwa [heq]
  · rw [heq] at huniq ⊢
    exact ⟨layersOrdered_of_none rfl h.layers.memValid h.layers.memTables h.layers.tables huniq,
      h.fresh, fun m hm => absurd hm (Option.not_mem_none m)⟩
  · have htops := @Ordered.tops sizing st m first last h himm hfst hlast
    have hmem : Shadows Entry.key Entry.sequence st.view.memStore
        (st.version.store st.contents ∪ storeOf m.entries) :=
      h.layers.memTables.union_right (immStore_of_some himm ▸ h.layers.memImm)
    rw [heq] at huniq ⊢
    exact ⟨layersOrdered_of_none rfl h.layers.memValid (htops.store_table.symm ▸ hmem)
      (searchOrder_flush htops (h.shadows himm) h.layers.tables) huniq,
      h.fresh_flush himm hfst hlast, fun m hm => absurd hm (Option.not_mem_none m)⟩

theorem Ordered.get_flush (h : Ordered st) (hs : s ≤ maxSequenceNumber) (k : Bytes) :
    (st.flush sizing).view.get (lookupIn (st.flush sizing).contents) (some s) k =
      st.view.get (lookupIn st.contents) (some s) k :=
  h.get_congr h.flush h.store_flush hs k

/-- **Flushing preserves reads.** From any ordered state, the entries of a nonempty immutable
memtable become a table of the picked level, the immutable memtable is given up, the layers are
ordered again, and every read at every snapshot returns what it returned before. -/
theorem flush_preserves_reads (h : Ordered st) (himm : st.imm = some m) (hne : m.entries ≠ []) :
    (st.flush sizing).imm = none ∧
      (∃ first ∈ m.entries.head?, ∃ last ∈ m.entries.getLast?,
        ∃ f ∈ (st.flush sizing).version.files
            (st.version.pickLevelForMemtableOutput bytewiseComparator first.key last.key),
          (st.flush sizing).contents f.number = m.entries) ∧
      Ordered (st.flush sizing) ∧
      ∀ k, ∀ s ≤ maxSequenceNumber,
        (st.flush sizing).view.get (lookupIn (st.flush sizing).contents) (some s) k =
          st.view.get (lookupIn st.contents) (some s) k := by
  obtain ⟨first, hfst⟩ : ∃ first, m.entries.head? = some first :=
    Option.ne_none_iff_exists'.mp (mt List.head?_eq_none_iff.mp hne)
  obtain ⟨last, hlast⟩ : ∃ last, m.entries.getLast? = some last :=
    Option.ne_none_iff_exists'.mp (mt List.getLast?_eq_none_iff.mp hne)
  have htops := @Ordered.tops sizing st m first last h himm hfst hlast
  have hnew := htops.mem_files.mpr (.inr ⟨rfl, List.mem_cons_self⟩)
  have heq := flush_eq sizing himm hfst hlast
  refine ⟨by rw [heq], ⟨first, hfst, last, hlast, ?_⟩, h.flush, fun k s hs => h.get_flush hs k⟩
  rw [heq]
  exact ⟨_, hnew, Function.update_self _ _ _⟩

/-! ### The states of a run -/

variable {flushed rotated : ℕ}

/-- The layers of a read are ordered by the ranges of their sequence numbers. -/
theorem ReadInv.layersOrdered (h : ReadInv st flushed rotated) :
    st.view.LayersOrdered st.contents := by
  have himm : ∀ e ∈ st.view.immStore, e.Valid ∧ flushed < e.sequence ∧ e.sequence ≤ rotated := by
    rintro e ⟨m, hm, he⟩
    exact ⟨(h.imm m hm).valid e he, (h.imm m hm).range e he⟩
  have htabs : ∀ e ∈ st.version.store st.contents, e.sequence ≤ flushed := by
    rintro e ⟨level, -, f, hf, he⟩
    exact h.tables level f hf e he
  have hmemImm : Shadows Entry.key Entry.sequence st.view.memStore st.view.immStore :=
    fun a ha b hb _ => (himm b hb).2.2.trans_lt (h.mem.range a ha).1
  have hmemTables :
      Shadows Entry.key Entry.sequence st.view.memStore (st.version.store st.contents) :=
    fun a ha b hb _ => ((htabs b hb).trans h.flushed_le).trans_lt (h.mem.range a ha).1
  have himmTables : Shadows Entry.key Entry.sequence st.view.immStore
      (st.version.store st.contents) :=
    fun a ha b hb _ => (htabs b hb).trans_lt (himm a ha).2.1
  refine ⟨h.mem.valid, fun e he => (himm e he).1, hmemImm, hmemTables, himmTables,
    h.levels.searchOrder h.recent, ?_⟩
  refine OnePerSequence.union (hmemImm.union_right hmemTables)
    (fun a ha b hb _ hseq => h.mem.eq_of_sequence_eq ha hb hseq)
    (OnePerSequence.union himmTables ?_ h.levels.onePerSequence)
  rintro a ⟨m, hm, ha⟩ b ⟨m', hm', hb⟩ - hseq
  obtain rfl : m = m' := Option.mem_unique hm hm'
  exact (h.imm m hm).eq_of_sequence_eq ha hb hseq

theorem ReadInv.ordered (h : ReadInv st flushed rotated) : Ordered st where
  layers := h.layersOrdered
  fresh level _ := h.levels.fresh level
  nodup m hm := (h.imm m hm).distinct.imp fun hne heq => hne (congrArg Entry.sequence heq)

/-- The key `[107]` is written and flushed, and then written again. -/
def rewritten : List Action :=
  [.write .value [107] [1], .rotate, .flush, .write .value [107] [2], .rotate]

theorem flush_rewritten :
    ∃ m, (Runs.run (step tornSizing) empty rewritten).imm = some m ∧ m.entries ≠ [] ∧
      ∀ s ≤ maxSequenceNumber,
        ((Runs.run (step tornSizing) empty rewritten).flush tornSizing).view.get
            (lookupIn ((Runs.run (step tornSizing) empty rewritten).flush tornSizing).contents)
            (some s) [107] =
          (Runs.run (step tornSizing) empty rewritten).view.get
            (lookupIn (Runs.run (step tornSizing) empty rewritten).contents) (some s) [107] := by
  have hrun : Runs.Along (step tornSizing) KeepsKeys empty rewritten := by
    simp [rewritten, Runs.Along, KeepsKeys]
  obtain ⟨flushed, rotated, hinv⟩ := readInv_run hrun
  have hne : ∃ m, (Runs.run (step tornSizing) empty rewritten).imm = some m ∧ m.entries ≠ [] := by
    decide +kernel
  obtain ⟨m, himm, hne⟩ := hne
  exact ⟨m, himm, hne, (flush_preserves_reads hinv.ordered himm hne).2.2.2 [107]⟩

end Lsm
end PulsearcDb
