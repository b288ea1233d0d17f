import PulsearcDb.VersionSet.Search

/-!
# The layered read path

`DBImplCore::get_with_options` (`db_impl/db_impl.rs`) asks the memtable, then the immutable memtable
if there is one, then the tables of the current version, and stops at the first answer. A tombstone
is an answer. When each layer holds only newer entries of a key than the layers below it, the answer
is the newest entry that the snapshot may see, over all layers.
-/

namespace PulsearcDb

open Recency List

/-- The part of `DBImplCore` that a read looks at. -/
structure ReadView (c : Comparator) where
  mem : MemTable c := {}
  imm : Option (MemTable c) := none
  version : Version := {}
  lastSequence : ℕ := 0

namespace ReadView

/-- `get_with_options`, with the lookup of the table cache. -/
def get {c : Comparator} (view : ReadView c) (lookup : ℕ → Bytes → Result LookupResult)
    (snapshot : Option ℕ) (key : Bytes) : Result (Option Bytes) :=
  let sequence := snapshot.getD view.lastSequence
  match view.mem.get key sequence with
  | some r => MemTable.found r
  | none =>
    match view.imm.bind fun imm => imm.get key sequence with
    | some r => MemTable.found r
    | none => view.version.get c key (lookupKey key sequence) lookup

/-- Views that find the same in each of their parts read the same. -/
theorem get_congr {c c' : Comparator} {view : ReadView c} {view' : ReadView c'}
    {lookup lookup' : ℕ → Bytes → Result LookupResult} {key : Bytes} (snapshot : Option ℕ)
    (hmem : view.mem.get key (snapshot.getD view.lastSequence) =
      view'.mem.get key (snapshot.getD view'.lastSequence))
    (himm : (view.imm.bind fun imm => imm.get key (snapshot.getD view.lastSequence)) =
      view'.imm.bind fun imm => imm.get key (snapshot.getD view'.lastSequence))
    (hversion : view.version.get c key (lookupKey key (snapshot.getD view.lastSequence)) lookup =
      view'.version.get c' key (lookupKey key (snapshot.getD view'.lastSequence)) lookup') :
    view.get lookup snapshot key = view'.get lookup' snapshot key := by
  simp only [get, hmem, himm, hversion]

section Bytewise

variable (view : ReadView bytewiseComparator) (contents : ℕ → List Entry)

/-- The entries of the memtable. -/
def memStore : Set Entry := storeOf view.mem.entries

/-- The entries of the immutable memtable. -/
def immStore : Set Entry := {e | ∃ imm ∈ view.imm, e ∈ imm.entries}

/-- All entries, over all layers. -/
def store : Set Entry := view.memStore ∪ (view.immStore ∪ view.version.store contents)

/-- Each layer is newer than the layers below it. -/
structure LayersOrdered : Prop where
  memValid : ∀ e ∈ view.memStore, e.Valid
  immValid : ∀ e ∈ view.immStore, e.Valid
  memImm : Shadows Entry.key Entry.sequence view.memStore view.immStore
  memTables : Shadows Entry.key Entry.sequence view.memStore (view.version.store contents)
  immTables : Shadows Entry.key Entry.sequence view.immStore (view.version.store contents)
  tables : SearchOrder view.version contents
  /-- A key has one entry with a given sequence number. -/
  unique : OnePerSequence Entry.key Entry.sequence (view.store contents)

variable {view contents} {k : Bytes} {s : ℕ}

private theorem imm_spec (hvalid : ∀ e ∈ view.immStore, e.Valid) (hs : s ≤ maxSequenceNumber)
    (k : Bytes) :
    ∃ o, Answers Entry.key Entry.sequence view.immStore k s o ∧
      (view.imm.bind fun imm => imm.get k s).map MemTable.found = o.map fun e => .ok e.live := by
  rcases himm : view.imm with _ | imm
  · exact ⟨none, fun e he => by simp [immStore, himm] at he, rfl⟩
  · have hstore : view.immStore = storeOf imm.entries := by
      ext e
      simp [immStore, himm, storeOf]
    rw [hstore] at hvalid ⊢
    exact imm.get_spec hvalid hs k

/-- The answers of the layers, one after the other. -/
theorem get_spec {lookup : ℕ → Bytes → Result LookupResult} (h : view.LayersOrdered contents)
    (hlook : ∀ level < numLevels, ∀ f ∈ view.version.files level, LookupOk lookup contents f)
    (hs : s ≤ maxSequenceNumber) (k : Bytes) :
    ∃ o, Answers Entry.key Entry.sequence (view.store contents) k s o ∧
      view.get lookup (some s) k = .ok (o.bind Entry.live) := by
  obtain ⟨o₁, h₁, heq₁⟩ := view.mem.get_spec h.memValid hs k
  obtain ⟨o₂, h₂, heq₂⟩ := imm_spec h.immValid hs k
  obtain ⟨o₃, h₃, heq₃⟩ := h.tables.recencyOrder.get_spec hlook hs k
  have hans :
      Answers Entry.key Entry.sequence (view.store contents) k s (o₁.or (o₂.or o₃)) := by
    refine h₁.orElse ?_ (h₂.orElse (h.immTables.mono subset_rfl Set.sdiff_subset) h₃)
    exact (h.memImm.union_right h.memTables).mono subset_rfl Set.sdiff_subset
  refine ⟨_, hans, ?_⟩
  rw [get, Option.getD_some]
  rcases hmem : view.mem.get k s with _ | r
  · obtain rfl : o₁ = none := by simpa [hmem] using heq₁.symm
    rcases himm : view.imm.bind fun imm => imm.get k s with _ | r
    · obtain rfl : o₂ = none := by simpa [himm] using heq₂.symm
      simpa using heq₃
    · obtain ⟨e, rfl, he⟩ : ∃ e, o₂ = some e ∧ .ok e.live = MemTable.found r := by
        simpa [himm] using heq₂.symm
      simp [← he]
  · obtain ⟨e, rfl, he⟩ : ∃ e, o₁ = some e ∧ .ok e.live = MemTable.found r := by
      simpa [hmem] using heq₁.symm
    simp [← he]

/-- **A read returns the newest visible entry.** It returns a value exactly when the newest entry of
the key that the snapshot may see, over all layers, has this value, and it returns nothing exactly
when there is no such entry or it is a tombstone. -/
theorem get_iff {lookup : ℕ → Bytes → Result LookupResult} (h : view.LayersOrdered contents)
    (hlook : ∀ level < numLevels, ∀ f ∈ view.version.files level, LookupOk lookup contents f)
    (hs : s ≤ maxSequenceNumber) (k : Bytes) :
    (∀ value, view.get lookup (some s) k = .ok (some value) ↔
        ∃ e, IsNewest Entry.key Entry.sequence (view.store contents) k s e ∧ e.live = some value) ∧
      (view.get lookup (some s) k = .ok none ↔
        Hidden Entry.key Entry.sequence (view.store contents) k s ∨
          ∃ e, IsNewest Entry.key Entry.sequence (view.store contents) k s e ∧ e.live = none) := by
  obtain ⟨o, ho, hget⟩ := get_spec h hlook hs k
  rw [hget]
  have huniq : ∀ e, IsNewest Entry.key Entry.sequence (view.store contents) k s e ↔ o = some e :=
    fun e => ⟨fun he => ho.unique h.unique (show Answers _ _ _ k s (some e) from he),
      fun he => (he ▸ ho : Answers _ _ _ k s (some e))⟩
  have hhidden : Hidden Entry.key Entry.sequence (view.store contents) k s ↔ o = none :=
    ⟨fun he => ho.unique h.unique (show Answers _ _ _ k s none from he),
      fun he => (he ▸ ho : Answers _ _ _ k s none)⟩
  simp only [huniq, hhidden]
  cases o <;> simp

/-! ### An example -/

/-- A value of the key `[107]`. -/
def versionOf107 (sequence : ℕ) (value : Bytes) : Entry :=
  ⟨internalKey [107] sequence .value, value⟩

private def table107 : FileMetaData :=
  ⟨7, 1, internalKey [107] 3 .value, internalKey [107] 3 .value⟩

private theorem files_ite {level : ℕ} {f : FileMetaData}
    (h : f ∈ if level = 1 then [table107] else []) : level = 1 ∧ f = table107 := by
  split_ifs at h with hlev
  · exact ⟨hlev, mem_singleton.mp h⟩
  · simp at h

/-- An old value in a table of level 1 and a new one in the memtable. -/
def twoLayers : ReadView bytewiseComparator where
  mem := { entries := [versionOf107 5 [2]] }
  version := { files := fun level => if level = 1 then [table107] else [] }
  lastSequence := 5

/-- The old value is in the table. -/
def twoLayersContents : ℕ → List Entry := fun _ => [versionOf107 3 [1]]

private theorem fileOk_table107 : FileOk (twoLayersContents table107.number) table107 where
  sorted := pairwise_singleton _ _
  smallest := rfl
  largest := rfl
  valid e he := by
    obtain rfl := mem_singleton.mp he
    exact ⟨[107], 3, .value, by decide, rfl⟩

private theorem mem_store_tables {e : Entry} (he : e ∈ twoLayers.version.store twoLayersContents) :
    e = versionOf107 3 [1] := by
  obtain ⟨level, -, f, -, hmem⟩ := he
  exact mem_singleton.mp hmem

private theorem shadows_twoLayers : Shadows Entry.key Entry.sequence twoLayers.memStore
    (twoLayers.version.store twoLayersContents) := by
  intro a ha b hb _
  rw [mem_singleton.mp ha, mem_store_tables hb]
  decide +kernel

theorem layersOrdered_twoLayers : twoLayers.LayersOrdered twoLayersContents where
  memValid e he := by
    obtain rfl := mem_singleton.mp he
    exact ⟨[107], 5, .value, by decide, rfl⟩
  immValid e he := by
    obtain ⟨imm, himm, -⟩ := he
    cases himm
  memImm a _ b hb := by
    obtain ⟨imm, himm, -⟩ := hb
    cases himm
  memTables := shadows_twoLayers
  immTables a ha := by
    obtain ⟨imm, himm, -⟩ := ha
    cases himm
  tables := {
    files := fun level _ f hf => (files_ite hf).2 ▸ fileOk_table107
    level0 := fun f hf => nomatch (hf : f ∈ ([] : List FileMetaData))
    levels := fun level _ upper hlt a ⟨f, hf, _⟩ b ⟨g, hg, _⟩ => by
      have h₁ := (files_ite hf).1
      have h₂ := (files_ite hg).1
      omega
    sorted := fun level _ _ => by
      change (if level = 1 then [table107] else []).Pairwise _
      split_ifs <;> simp }
  unique e he e' he' hkey hseq := by
    rcases he with he | ⟨imm, himm, -⟩ | he
    · rcases he' with he' | ⟨imm, himm, -⟩ | he'
      · rw [mem_singleton.mp he, mem_singleton.mp he']
      · cases himm
      · exact absurd hseq (shadows_twoLayers e he e' he' hkey).ne'
    · cases himm
    · rcases he' with he' | ⟨imm, himm, -⟩ | he'
      · exact absurd hseq.symm (shadows_twoLayers e' he' e he hkey.symm).ne'
      · cases himm
      · rw [mem_store_tables he, mem_store_tables he']

/-- A snapshot before the new value reads the old one. -/
theorem get_twoLayers_between :
    ∃ e, IsNewest Entry.key Entry.sequence (twoLayers.store twoLayersContents) [107] 4 e ∧
      e.live = some [1] :=
  ((get_iff layersOrdered_twoLayers
    (fun level hlev f hf => (layersOrdered_twoLayers.tables.files level hlev f hf).lookupOk)
    (by decide) [107]).1 [1]).mp (by decide +kernel)

end Bytewise
end ReadView
end PulsearcDb
