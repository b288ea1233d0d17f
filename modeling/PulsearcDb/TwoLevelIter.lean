import PulsearcDb.DbIterator
import Mathlib.Data.List.Nodup

/-!
# The two-level iterator

`TwoLevelIterator` (`two_level_iter/two_level_iter.rs`) is an iterator over the blocks that an index
points to. The index iterator yields keys with the handles of blocks, `block_function` opens a
block, and blocks without an entry are skipped in both directions.

The loops end when the index iterator does, and nothing in the iterator bounds them. `rounds` is the
number of rounds that a loop may take; a call that needs more is `none`.

The iterator is a cursor over the blocks one after the other (`TwoLevelIterator.sound`). Both loops
are one function of the direction, and what it does is stated once for an order of the entries,
which is the reverse order for the loop that goes backward.
-/

namespace PulsearcDb

open Cursor List

/-- `struct TwoLevelIterator`. -/
structure TwoLevelIterator (O I : Type) where
  indexIter : O
  dataIter : Option I := none
  blockFunction : Bytes → Result I
  dataBlockHandle : Bytes := []
  status : Result Unit := .ok ()
  rounds : ℕ

namespace TwoLevelIterator

variable {O I : Type} [DbIterator O] [DbIterator I]

/-- There is a valid data iterator. -/
def valid (it : TwoLevelIterator O I) : Bool := it.dataIter.any DbIterator.valid

/-- The first error of the index iterator and the data iterator. -/
def innerStatus (it : TwoLevelIterator O I) : Result Unit := do
  DbIterator.status it.indexIter
  it.dataIter.elim (.ok ()) DbIterator.status

/-- Keep the first error of the data iterators. -/
def saveStatus (it : TwoLevelIterator O I) : TwoLevelIterator O I :=
  { it with status := it.status.bind fun _ => it.innerStatus }

/-- Open the block that the index points to. -/
def initDataBlock (it : TwoLevelIterator O I) : Option (TwoLevelIterator O I) :=
  if DbIterator.valid it.indexIter then do
    let handle ← DbIterator.value it.indexIter
    if it.dataIter.isSome ∧ handle = it.dataBlockHandle then return it
    else match it.blockFunction handle with
      | .ok d => return { it with dataIter := some d, dataBlockHandle := handle }
      | .error e => return { it with dataIter := none, status := .error e }
  else some { it with dataIter := none }

/-- A call on the data iterator, if there is one. -/
def onData (call : I → Option I) (it : TwoLevelIterator O I) : Option (TwoLevelIterator O I) :=
  match it.dataIter with
  | none => some it
  | some d => do return { it with dataIter := some (← call d) }

/-- `skip_empty_data_blocks_forward` and `skip_empty_data_blocks_backward`: `move` goes to the next
block and `enter` to the entry of a block that comes first in this direction. -/
def skipEmptyDataBlocks (move : O → Option O) (enter : I → Option I) :
    ℕ → TwoLevelIterator O I → Option (TwoLevelIterator O I)
  | 0, _ => none
  | rounds + 1, it =>
    if it.valid then some it
    else
      let it := it.saveStatus
      if it.status.isOk then
        if DbIterator.valid it.indexIter then do
          let indexIter ← move it.indexIter
          let it ← { it with indexIter }.initDataBlock
          let it ← it.onData enter
          skipEmptyDataBlocks move enter rounds it
        else some { it with dataIter := none }
      else some it

/-- On to the next block with an entry. -/
def skipEmptyDataBlocksForward (it : TwoLevelIterator O I) : Option (TwoLevelIterator O I) :=
  skipEmptyDataBlocks DbIterator.next DbIterator.seekToFirst it.rounds it

/-- Back to the last block with an entry. -/
def skipEmptyDataBlocksBackward (it : TwoLevelIterator O I) : Option (TwoLevelIterator O I) :=
  skipEmptyDataBlocks DbIterator.prev DbIterator.seekToLast it.rounds it

/-- The first entry of the first block that has one. -/
def seekToFirst (it : TwoLevelIterator O I) : Option (TwoLevelIterator O I) := do
  let indexIter ← DbIterator.seekToFirst it.indexIter
  let it ← { it with indexIter }.initDataBlock
  let it ← it.onData DbIterator.seekToFirst
  it.skipEmptyDataBlocksForward

/-- The last entry of the last block that has one. -/
def seekToLast (it : TwoLevelIterator O I) : Option (TwoLevelIterator O I) := do
  let indexIter ← DbIterator.seekToLast it.indexIter
  let it ← { it with indexIter }.initDataBlock
  let it ← it.onData DbIterator.seekToLast
  it.skipEmptyDataBlocksBackward

/-- The block by the index, then the entry. -/
def seek (it : TwoLevelIterator O I) (target : Bytes) : Option (TwoLevelIterator O I) := do
  let indexIter ← DbIterator.seek it.indexIter target
  let it ← { it with indexIter }.initDataBlock
  let it ← it.onData (DbIterator.seek · target)
  it.skipEmptyDataBlocksForward

/-- The next entry, in this block or a later one. -/
def next (it : TwoLevelIterator O I) : Option (TwoLevelIterator O I) := do
  guard it.valid
  let it ← it.onData DbIterator.next
  it.skipEmptyDataBlocksForward

/-- The entry before, in this block or an earlier one. -/
def prev (it : TwoLevelIterator O I) : Option (TwoLevelIterator O I) := do
  guard it.valid
  let it ← it.onData DbIterator.prev
  it.skipEmptyDataBlocksBackward

instance : DbIterator (TwoLevelIterator O I) where
  valid := valid
  seekToFirst := seekToFirst
  seekToLast := seekToLast
  seek := seek
  next := next
  prev := prev
  key it := it.dataIter.bind DbIterator.key
  value it := it.dataIter.bind DbIterator.value
  status it := it.status.bind fun _ => it.innerStatus

end TwoLevelIterator

/-! ### Blocks and their index -/

/-- A block, with the key and the handle that the index has for it. -/
structure IndexedBlock where
  key : Bytes
  handle : Bytes
  entries : List Pair

namespace IndexedBlock

/-- What the index holds of a block. -/
def indexEntry (b : IndexedBlock) : Pair := (b.key, b.handle)

/-- The key of a block is not before its entries, and it is before the entries of the blocks
behind. -/
structure Separated (cmp : Compare) (blocks : List IndexedBlock) : Prop where
  sorted : ∀ b ∈ blocks, Increasing cmp b.entries
  le_key : ∀ b ∈ blocks, ∀ e ∈ b.entries, (cmp e.1 b.key).isLE
  key_lt : blocks.Pairwise fun a b =>
    cmp a.key b.key = .lt ∧ ∀ e ∈ b.entries, cmp a.key e.1 = .lt
  nodup : (blocks.map handle).Nodup

/-- The entries of all blocks. -/
def allEntries (blocks : List IndexedBlock) : List Pair := blocks.flatMap entries

theorem mem_allEntries {blocks : List IndexedBlock} {e : Pair} :
    e ∈ allEntries blocks ↔ ∃ b ∈ blocks, e ∈ b.entries := mem_flatMap

/-- Blocks in an order of the entries, where the entries of the index are in the order of the
blocks. -/
structure Ordered {κ : Type*} [LinearOrder κ] (place : Pair → κ)
    (blocks : List IndexedBlock) : Prop where
  total : ∀ a ∈ blocks, ∀ b ∈ blocks, place a.indexEntry < place b.indexEntry ∨ a = b ∨
    place b.indexEntry < place a.indexEntry
  lt : ∀ a ∈ blocks, ∀ b ∈ blocks, place a.indexEntry < place b.indexEntry →
    ∀ x ∈ a.entries, ∀ y ∈ b.entries, place x < place y

theorem Ordered.dual {κ : Type*} [LinearOrder κ] {place : Pair → κ}
    {blocks : List IndexedBlock} (h : Ordered place blocks) :
    Ordered (fun e => OrderDual.toDual (place e)) blocks where
  total a ha b hb := (h.total b hb a ha).imp id (Or.imp_left Eq.symm)
  lt a ha b hb hab x hx y hy := h.lt b hb a ha hab y hy x hx

section Reaches

variable {κ : Type*} [LinearOrder κ] {place : Pair → κ} {blocks : List IndexedBlock}
  {T : Set Pair} {b b' : IndexedBlock} {e : Pair} {p : Option Pair}

/-- The first entry of `T` is sought from a block on: the entry is the first one of `T` in the
block, the blocks before have no entries of `T`, and the blocks behind have only such entries. -/
structure Reaches (place : Pair → κ) (blocks : List IndexedBlock) (T : Set Pair)
    (b : IndexedBlock) (p : Option Pair) : Prop where
  first : IsFirst place {e | e ∈ b.entries ∧ e ∈ T} p
  before : ∀ a ∈ blocks, place a.indexEntry < place b.indexEntry → ∀ e ∈ a.entries, e ∉ T
  behind : ∀ a ∈ blocks, place b.indexEntry < place a.indexEntry → ∀ e ∈ a.entries, e ∈ T

/-- An entry of `T` is in the block or behind it. -/
theorem Reaches.mem_or_behind (h : Reaches place blocks T b p) (hord : Ordered place blocks)
    (hT : ∀ e ∈ T, e ∈ allEntries blocks) (hb : b ∈ blocks) (he : e ∈ T) :
    e ∈ b.entries ∨ ∃ a ∈ blocks, place b.indexEntry < place a.indexEntry ∧ e ∈ a.entries := by
  obtain ⟨a, ha, hea⟩ := mem_allEntries.mp (hT e he)
  rcases hord.total a ha b hb with hlt | rfl | hlt
  · exact absurd he (h.before a ha hlt e hea)
  · exact .inl hea
  · exact .inr ⟨a, ha, hlt, hea⟩

theorem Reaches.isFirst (h : Reaches place blocks T b (some e)) (hord : Ordered place blocks)
    (hT : ∀ e ∈ T, e ∈ allEntries blocks) (hb : b ∈ blocks) : IsFirst place T (some e) := by
  refine ⟨h.first.1.2, fun e' he' => ?_⟩
  rcases h.mem_or_behind hord hT hb he' with hmem | ⟨a, ha, hlt, hea⟩
  · exact h.first.2 e' ⟨hmem, he'⟩
  · exact (hord.lt b hb a ha hlt e h.first.1.1 e' hea).le

theorem Reaches.eq_empty (h : Reaches place blocks T b none) (hord : Ordered place blocks)
    (hT : ∀ e ∈ T, e ∈ allEntries blocks) (hb : b ∈ blocks)
    (hnext : IsFirst place {e | e ∈ blocks.map indexEntry ∧ place b.indexEntry < place e} none) :
    T = ∅ := by
  refine Set.eq_empty_of_forall_notMem fun e he => ?_
  rcases h.mem_or_behind hord hT hb he with hmem | ⟨a, ha, hlt, -⟩
  · exact h.first.notMem_of_none ⟨hmem, he⟩
  · exact hnext.notMem_of_none ⟨mem_map_of_mem ha, hlt⟩

theorem Reaches.next (h : Reaches place blocks T b none) (hord : Ordered place blocks)
    (hb : b ∈ blocks) (hnext : IsFirst place
      {e | e ∈ blocks.map indexEntry ∧ place b.indexEntry < place e} (some b'.indexEntry))
    (hb' : b' ∈ blocks) (hp : IsFirst place {e | e ∈ b'.entries} p) :
    Reaches place blocks T b' p where
  first := by
    have hall : ({e | e ∈ b'.entries} : Set Pair) = {e | e ∈ b'.entries ∧ e ∈ T} := by
      ext e
      exact ⟨fun he => ⟨he, h.behind b' hb' hnext.1.2 e he⟩, And.left⟩
    exact hall ▸ hp
  before a ha hlt e he := by
    rcases hord.total a ha b hb with hbefore | rfl | hbehind
    · exact h.before a ha hbefore e he
    · exact fun heT => h.first.notMem_of_none ⟨he, heT⟩
    · exact absurd (hnext.2 _ ⟨mem_map_of_mem ha, hbehind⟩) (not_le.mpr hlt)
  behind a ha hlt := h.behind a ha (hnext.1.2.trans hlt)

/-- All entries are sought from the first block. -/
theorem Reaches.of_first (hb : b ∈ blocks)
    (hfst : IsFirst place {e | e ∈ blocks.map indexEntry} (some b.indexEntry))
    (hp : IsFirst place {e | e ∈ b.entries} p) :
    Reaches place blocks {e | e ∈ allEntries blocks} b p where
  first := by
    have hall : ({e | e ∈ b.entries} : Set Pair) =
        {e | e ∈ b.entries ∧ e ∈ allEntries blocks} := by
      ext e
      exact ⟨fun he => ⟨he, mem_allEntries.mpr ⟨b, hb, he⟩⟩, And.left⟩
    exact hall ▸ hp
  before a ha hlt := absurd (hfst.2 _ (mem_map_of_mem ha)) (not_le.mpr hlt)
  behind a ha _ e he := mem_allEntries.mpr ⟨a, ha, he⟩

theorem allEntries_eq_empty (hnone : ({e | e ∈ blocks.map indexEntry} : Set Pair) = ∅) :
    ({e | e ∈ allEntries blocks} : Set Pair) = ∅ := by
  refine Set.eq_empty_of_forall_notMem fun e he => ?_
  obtain ⟨b, hb, -⟩ := mem_allEntries.mp he
  exact Set.notMem_empty b.indexEntry (hnone ▸ mem_map_of_mem hb)

/-- What is behind an entry of a block is sought from this block on. -/
theorem Reaches.of_mem (hord : Ordered place blocks) (hb : b ∈ blocks) (he : e ∈ b.entries)
    (hp : IsFirst place {e' | e' ∈ b.entries ∧ place e < place e'} p) :
    Reaches place blocks {e' | e' ∈ allEntries blocks ∧ place e < place e'} b p where
  first := by
    have hall : ({e' | e' ∈ b.entries ∧ place e < place e'} : Set Pair) =
        {e' | e' ∈ b.entries ∧ e' ∈ allEntries blocks ∧ place e < place e'} := by
      ext e'
      exact ⟨fun h => ⟨h.1, mem_allEntries.mpr ⟨b, hb, h.1⟩, h.2⟩, fun h => ⟨h.1, h.2.2⟩⟩
    exact hall ▸ hp
  before a ha hlt e' he' h := absurd h.2 (hord.lt a ha b hb hlt e' he' e he).asymm
  behind a ha hlt e' he' := ⟨mem_allEntries.mpr ⟨a, ha, he'⟩, hord.lt b hb a ha hlt e he e' he'⟩

end Reaches

section Separated

variable {cmp : Compare} {blocks : List IndexedBlock} {a b : IndexedBlock} {x y : Pair}

theorem Separated.pairwise_index (h : Separated cmp blocks) :
    Increasing cmp (blocks.map indexEntry) :=
  pairwise_map.mpr (h.key_lt.imp And.left)

variable [Std.TransCmp cmp]

/-- The place of an entry, of a block or of the index. -/
noncomputable abbrev pos (cmp : Compare) [Std.TransCmp cmp] (e : Pair) :
    Rank cmp := rank cmp e.1

variable (h : Separated cmp blocks)
include h

theorem Separated.le_pos (hb : b ∈ blocks) (hx : x ∈ b.entries) :
    pos cmp x ≤ pos cmp b.indexEntry :=
  rank_le_rank.mpr (h.le_key b hb x hx)

theorem Separated.pairwise_allEntries :
    Increasing cmp (allEntries blocks) := by
  refine pairwise_flatMap.mpr ⟨h.sorted, h.key_lt.imp_of_mem fun ha _ hab x hx y hy => ?_⟩
  exact rank_lt_rank.mp ((h.le_pos ha hx).trans_lt (rank_lt_rank.mpr (hab.2 y hy)))

omit [Std.TransCmp cmp] in
theorem Separated.before_or_eq_or_behind (ha : a ∈ blocks) (hb : b ∈ blocks) :
    (cmp a.key b.key = .lt ∧ ∀ e ∈ b.entries, cmp a.key e.1 = .lt) ∨ a = b ∨
      (cmp b.key a.key = .lt ∧ ∀ e ∈ a.entries, cmp b.key e.1 = .lt) := by
  obtain ⟨i, hi, rfl⟩ := mem_iff_getElem.mp ha
  obtain ⟨j, hj, rfl⟩ := mem_iff_getElem.mp hb
  have hlt := pairwise_iff_getElem.mp h.key_lt
  rcases lt_trichotomy i j with hij | rfl | hij
  · exact .inl (hlt i j hi hj hij)
  · exact .inr (.inl rfl)
  · exact .inr (.inr (hlt j i hj hi hij))

/-- The key of a block is before the entries of the blocks behind. -/
theorem Separated.pos_lt (ha : a ∈ blocks) (hb : b ∈ blocks)
    (hab : pos cmp a.indexEntry < pos cmp b.indexEntry) (hy : y ∈ b.entries) :
    pos cmp a.indexEntry < pos cmp y := by
  rcases h.before_or_eq_or_behind ha hb with hbefore | rfl | hbehind
  · exact rank_lt_rank.mpr (hbefore.2 y hy)
  · exact absurd hab (lt_irrefl _)
  · exact absurd (rank_lt_rank.mpr hbehind.1) hab.asymm

theorem Separated.ordered : Ordered (pos cmp) blocks where
  total _ ha _ hb := (h.before_or_eq_or_behind ha hb).imp (fun hlt => rank_lt_rank.mpr hlt.1)
    (Or.imp_right fun hlt => rank_lt_rank.mpr hlt.1)
  lt _ ha _ hb hab _ hx _ hy := (h.le_pos ha hx).trans_lt (h.pos_lt ha hb hab hy)

end Separated

end IndexedBlock

/-! ### The iterator is a cursor -/

namespace TwoLevelIterator

open IndexedBlock

variable {O I : Type} [DbIterator O] [DbIterator I] {cmp : Compare} [Std.TransCmp cmp]

/-- What a two-level iterator goes over: an index, and blocks that are opened without an error.
The states of the iterators are related to the entries that they are at. -/
structure Levels (cmp : Compare) [Std.TransCmp cmp] (O I : Type) [DbIterator O]
    [DbIterator I] where
  blocks : List IndexedBlock
  separated : Separated cmp blocks
  AtIndex : O → Option Pair → Prop
  index : DbIterator.SoundTracks cmp {e | e ∈ blocks.map indexEntry} AtIndex
  AtData : IndexedBlock → I → Option Pair → Prop
  data : ∀ b ∈ blocks, DbIterator.SoundTracks cmp {e | e ∈ b.entries} (AtData b)
  mem_entries : ∀ {b d e}, AtData b d (some e) → e ∈ b.entries
  openBlock : Bytes → Result I
  opens : ∀ b ∈ blocks, ∃ d, openBlock b.handle = .ok d ∧ AtData b d none
  rounds : ℕ
  lt_rounds : blocks.length < rounds

namespace Levels

variable (L : Levels cmp O I) {it it' : TwoLevelIterator O I} {b : IndexedBlock}
  {p q : Option Pair}

/-- The data iterator is the one of a block, at an entry of it. -/
def DataAt (it : TwoLevelIterator O I) (b : IndexedBlock) (p : Option Pair) : Prop :=
  ∃ d, it.dataIter = some d ∧ it.dataBlockHandle = b.handle ∧ L.AtData b d p

/-- There is no error, and a data iterator is the one of its handle. -/
structure Intact (it : TwoLevelIterator O I) : Prop where
  function_eq : it.blockFunction = L.openBlock
  rounds_eq : it.rounds = L.rounds
  status_eq : it.status = .ok ()
  data : it.dataIter = none ∨ ∃ b ∈ L.blocks, ∃ p, L.DataAt it b p

/-- The iterator is at a block of the index, and in this block at an entry. -/
structure AtBlock (it : TwoLevelIterator O I) (b : IndexedBlock) (p : Option Pair) : Prop
    extends L.Intact it where
  mem : b ∈ L.blocks
  index : L.AtIndex it.indexIter (some b.indexEntry)
  dataAt : L.DataAt it b p

/-- The iterator is at no block. -/
structure AtNone (it : TwoLevelIterator O I) : Prop extends L.Intact it where
  index : ∃ p, L.AtIndex it.indexIter p
  dataIter_eq : it.dataIter = none

/-- The iterator is at an entry. -/
def At (it : TwoLevelIterator O I) : Option Pair → Prop
  | none => L.AtNone it
  | some e => ∃ b, L.AtBlock it b (some e)

variable {L}

theorem AtBlock.valid_eq (h : L.AtBlock it b p) : it.valid = p.isSome := by
  obtain ⟨d, hd, -, hat⟩ := h.dataAt
  have hshows := ((L.data b h.mem).shows hat).1
  rw [valid, hd, Option.any_some]
  cases p with
  | none => exact hshows
  | some e => exact hshows.1

theorem AtBlock.innerStatus_eq (h : L.AtBlock it b p) : it.innerStatus = .ok () := by
  obtain ⟨d, hd, -, hat⟩ := h.dataAt
  rw [innerStatus, hd, (L.index.shows h.index).2, Option.elim_some, ((L.data b h.mem).shows hat).2]
  rfl

theorem AtBlock.index_valid (h : L.AtBlock it b p) : DbIterator.valid it.indexIter = true :=
  (L.index.shows h.index).1.1

theorem AtNone.innerStatus_eq (h : L.AtNone it) : it.innerStatus = .ok () := by
  obtain ⟨p, hp⟩ := h.index
  rw [innerStatus, h.dataIter_eq, (L.index.shows hp).2]
  rfl

theorem Intact.isOk_status (h : L.Intact it) : it.status.isOk = true := by
  rw [h.status_eq]
  rfl

theorem saveStatus_eq (h : L.Intact it) (hinner : it.innerStatus = .ok ()) :
    it.saveStatus = it := by
  have hstat : (it.status.bind fun _ => it.innerStatus) = it.status := by
    rw [h.status_eq, hinner]
    rfl
  rw [saveStatus, hstat]

/-- **A block is opened**, or its iterator is used again, and the iterator goes to an entry
of it. -/
theorem load_spec (h : L.Intact it) (hidx : L.AtIndex it.indexIter q)
    (hq : ∀ e ∈ q, e ∈ L.blocks.map indexEntry) {call : I → Option I}
    {Goes : IndexedBlock → Option Pair → Prop}
    (hcall : ∀ {b d p}, b ∈ L.blocks → L.AtData b d p →
      ∃ d' p', call d = some d' ∧ L.AtData b d' p' ∧ Goes b p') :
    ∃ it₀ it', it.initDataBlock = some it₀ ∧ it₀.onData call = some it' ∧
      ((q = none ∧ L.AtNone it' ∧ L.AtIndex it'.indexIter none) ∨
        ∃ b p, q = some b.indexEntry ∧ L.AtBlock it' b p ∧ Goes b p) := by
  cases q with
  | none =>
    have hv : DbIterator.valid it.indexIter = false := (L.index.shows hidx).1
    refine ⟨{ it with dataIter := none }, { it with dataIter := none }, ?_, rfl, .inl ⟨rfl,
      ⟨⟨h.function_eq, h.rounds_eq, h.status_eq, .inl rfl⟩, ⟨none, hidx⟩, rfl⟩, hidx⟩⟩
    rw [initDataBlock, hv]
    rfl
  | some e =>
    obtain ⟨b, hb, rfl⟩ := mem_map.mp (hq e rfl)
    obtain ⟨hv, -, hval⟩ := (L.index.shows hidx).1
    have hload : ∃ d p, it.initDataBlock =
        some { it with dataIter := some d, dataBlockHandle := b.handle } ∧ L.AtData b d p := by
      rw [initDataBlock, hv, hval]
      by_cases hr : it.dataIter.isSome ∧ b.handle = it.dataBlockHandle
      · rcases h.data with hnone | ⟨b', hb', p, d, hd, hhandle, hat⟩
        · rw [hnone] at hr
          cases hr.1
        · obtain rfl : b = b' := inj_on_of_nodup_map L.separated.nodup hb hb' (hr.2.trans hhandle)
          refine ⟨d, p, ?_, hat⟩
          rw [← hd, hr.2]
          simp [indexEntry, hr.1, hr.2]
      · obtain ⟨d, hopen, hat⟩ := L.opens b hb
        refine ⟨d, none, ?_, hat⟩
        rw [h.function_eq]
        simp [indexEntry, hr, hopen]
    obtain ⟨d, p, hinit, hat⟩ := hload
    obtain ⟨d', p', hstep, hat', hgoes⟩ := hcall hb hat
    refine ⟨_, { it with dataIter := some d', dataBlockHandle := b.handle }, hinit, ?_,
      .inr ⟨b, p', rfl, ?_, hgoes⟩⟩
    · simp [onData, hstep]
    · exact ⟨⟨h.function_eq, h.rounds_eq, h.status_eq, .inr ⟨b, hb, p', d', rfl, rfl, hat'⟩⟩, hb,
        hidx, d', rfl, rfl, hat'⟩

/-! ### Skipping empty blocks -/

section Skip

variable {κ : Type*} [LinearOrder κ] {place : Pair → κ} {T : Set Pair}

variable (L place T) in
/-- The iterator has arrived at a block in which what is sought may start, and not more than `n`
blocks are left. -/
def Arrived (n : ℕ) (it : TwoLevelIterator O I) : Prop :=
  (T = ∅ ∧ L.AtNone it ∧ L.AtIndex it.indexIter none) ∨
    ∃ b p, L.AtBlock it b p ∧ Reaches place L.blocks T b p ∧
      entriesFrom place (L.blocks.map indexEntry) b.indexEntry ≤ n

/-- **The loop goes to the first entry of what is sought.** -/
theorem skipEmptyDataBlocks_spec (hord : Ordered place L.blocks)
    (hT : ∀ e ∈ T, e ∈ allEntries L.blocks) {move : O → Option O} {enter : I → Option I}
    (hmove : ∀ {s e}, L.AtIndex s (some e) → ∃ s' q, move s = some s' ∧ L.AtIndex s' q ∧
      IsFirst place {e' | e' ∈ L.blocks.map indexEntry ∧ place e < place e'} q)
    (henter : ∀ {b d p}, b ∈ L.blocks → L.AtData b d p →
      ∃ d' p', enter d = some d' ∧ L.AtData b d' p' ∧ IsFirst place {e | e ∈ b.entries} p')
    {n rounds : ℕ} (h : L.Arrived place T n it) (hrounds : n < rounds) :
    ∃ it' q, skipEmptyDataBlocks move enter rounds it = some it' ∧ L.At it' q ∧
      IsFirst place T q := by
  induction rounds generalizing it n with
  | zero => omega
  | succ rounds ih =>
    rw [skipEmptyDataBlocks]
    rcases h with ⟨rfl, hnone, hend⟩ | ⟨b, p, hat, hreaches, hleft⟩
    · refine ⟨it, none, ?_, hnone, rfl⟩
      have hv : it.valid = false := by rw [valid, hnone.dataIter_eq]; rfl
      have hidx : DbIterator.valid it.indexIter = false := (L.index.shows hend).1
      simp only [hv, saveStatus_eq hnone.toIntact hnone.innerStatus_eq, hnone.isOk_status,
        hidx, ← hnone.dataIter_eq, Bool.false_eq_true, if_false, if_true]
    · cases p with
      | some e =>
        refine ⟨it, some e, if_pos hat.valid_eq, ⟨b, hat⟩, hreaches.isFirst hord hT hat.mem⟩
      | none =>
        have hv : it.valid = false := hat.valid_eq
        obtain ⟨s', q, hstep, hidx, hfst⟩ := hmove hat.index
        have hintact : L.Intact { it with indexIter := s' } :=
          ⟨hat.function_eq, hat.rounds_eq, hat.status_eq, hat.data⟩
        obtain ⟨it₀, it₁, hinit, hdata, harr⟩ :=
          load_spec hintact hidx (fun e he => (hfst.mem he).1) henter
        obtain ⟨m, hm, harr'⟩ : ∃ m < rounds, L.Arrived place T m it₁ := by
          rcases harr with ⟨rfl, hnone, hend⟩ | ⟨b', p', rfl, hat', hp'⟩
          · have hpos : 0 < entriesFrom place (L.blocks.map indexEntry) b.indexEntry :=
              entriesFrom_pos (mem_map_of_mem hat.mem)
            exact ⟨0, by omega, .inl ⟨hreaches.eq_empty hord hT hat.mem hfst, hnone, hend⟩⟩
          · have hlt := entriesFrom_lt (mem_map_of_mem hat.mem) hfst.1.2
            exact ⟨_, by omega, .inr ⟨b', p', hat',
              hreaches.next hord hat.mem hfst hat'.mem hp', le_rfl⟩⟩
        obtain ⟨it', q', hloop, hat', hq'⟩ := ih harr' hm
        refine ⟨it', q', ?_, hat', hq'⟩
        simp only [hv, saveStatus_eq hat.toIntact hat.innerStatus_eq, hat.isOk_status,
          hat.index_valid, Bool.false_eq_true, if_false, if_true, hstep, Option.bind_eq_bind,
          Option.bind_some, hinit, hdata]
        exact hloop

end Skip

/-! ### The calls -/

theorem At.intact (h : L.At it p) : L.Intact it := by
  cases p with
  | none => exact AtNone.toIntact h
  | some e => exact h.choose_spec.toIntact

theorem At.exists_index (h : L.At it p) : ∃ q, L.AtIndex it.indexIter q := by
  cases p with
  | none => exact AtNone.index h
  | some e => exact ⟨_, h.choose_spec.index⟩

theorem At.showsOk (h : L.At it p) : DbIterator.ShowsOk it p := by
  have hok : ∀ {it : TwoLevelIterator O I}, L.Intact it → it.innerStatus = .ok () →
      (it.status.bind fun _ => it.innerStatus) = .ok () := fun hit hinner => by
    rw [hit.status_eq, hinner]
    rfl
  cases p with
  | none =>
    have h : L.AtNone it := h
    refine ⟨?_, hok h.toIntact h.innerStatus_eq⟩
    change it.dataIter.any DbIterator.valid = false
    rw [h.dataIter_eq]
    rfl
  | some e =>
    obtain ⟨b, h⟩ := h
    obtain ⟨d, hd, -, hat⟩ := h.dataAt
    obtain ⟨-, hkey, hval⟩ := ((L.data b h.mem).shows hat).1
    refine ⟨⟨h.valid_eq, ?_, ?_⟩, hok h.toIntact h.innerStatus_eq⟩
    · change it.dataIter.bind DbIterator.key = some e.1
      rw [hd, Option.bind_some, hkey]
    · change it.dataIter.bind DbIterator.value = some e.2
      rw [hd, Option.bind_some, hval]

variable {T : Set Pair}

/-- The loop that goes forward. -/
theorem skipEmptyDataBlocksForward_spec (hT : ∀ e ∈ T, e ∈ allEntries L.blocks) (hit : L.Intact it)
    (h : L.Arrived (pos cmp) T L.blocks.length it) :
    ∃ it' q, it.skipEmptyDataBlocksForward = some it' ∧ L.At it' q ∧ IsFirst (pos cmp) T q := by
  refine skipEmptyDataBlocks_spec L.separated.ordered hT (fun {s e} hat => ?_)
    (fun {b d p} hb hat => ?_) h (hit.rounds_eq ▸ L.lt_rounds)
  · have hallowed : (Call.next : Call Bytes).Allowed (some e) := rfl
    exact L.index.moves hat hallowed
  · have hallowed : (Call.seekToFirst : Call Bytes).Allowed p := trivial
    exact (L.data b hb).moves hat hallowed

/-- The loop that goes backward. -/
theorem skipEmptyDataBlocksBackward_spec (hT : ∀ e ∈ T, e ∈ allEntries L.blocks)
    (hit : L.Intact it)
    (h : L.Arrived (fun e => OrderDual.toDual (pos cmp e)) T L.blocks.length it) :
    ∃ it' q, it.skipEmptyDataBlocksBackward = some it' ∧ L.At it' q ∧ IsLast (pos cmp) T q := by
  have hmove : ∀ {s : O} {e}, L.AtIndex s (some e) → ∃ s' q, DbIterator.prev s = some s' ∧
      L.AtIndex s' q ∧ IsFirst (fun e => OrderDual.toDual (pos cmp e))
        {e' | e' ∈ L.blocks.map indexEntry ∧ pos cmp e' < pos cmp e} q := fun {s e} hat => by
    have hallowed : (Call.prev : Call Bytes).Allowed (some e) := rfl
    obtain ⟨s', q, hstep, hat', hlast⟩ := L.index.moves hat hallowed
    exact ⟨s', q, hstep, hat', isFirst_toDual.mpr hlast⟩
  have henter : ∀ {b : IndexedBlock} {d : I} {p}, b ∈ L.blocks → L.AtData b d p →
      ∃ d' q, DbIterator.seekToLast d = some d' ∧ L.AtData b d' q ∧
        IsFirst (fun e => OrderDual.toDual (pos cmp e)) {e | e ∈ b.entries} q :=
    fun {b d p} hb hat => by
      have hallowed : (Call.seekToLast : Call Bytes).Allowed p := trivial
      obtain ⟨d', q, hstep, hat', hlast⟩ := (L.data b hb).moves hat hallowed
      exact ⟨d', q, hstep, hat', isFirst_toDual.mpr hlast⟩
  obtain ⟨it', q, hskip, hat, hfst⟩ := skipEmptyDataBlocks_spec L.separated.ordered.dual hT hmove
    henter h (hit.rounds_eq ▸ L.lt_rounds)
  exact ⟨it', q, hskip, hat, isFirst_toDual.mp hfst⟩

/-- A call that moves the index and then enters the block there. -/
theorem arrive (hat : L.At it p) (call : Call Bytes)
    (hallowed : ∀ q : Option Pair, call.Allowed q) :
    ∃ s it₀ it₁ q, DbIterator.step it.indexIter call = some s ∧
      { it with indexIter := s }.initDataBlock = some it₀ ∧
      it₀.onData (DbIterator.step · call) = some it₁ ∧ L.Intact it₁ ∧
      (∃ p₀, Moves (pos cmp) (rank cmp) {e | e ∈ L.blocks.map indexEntry} p₀ call q) ∧
      ((q = none ∧ L.AtNone it₁ ∧ L.AtIndex it₁.indexIter none) ∨
        ∃ b p', q = some b.indexEntry ∧ L.AtBlock it₁ b p' ∧
          ∃ p₀, Moves (pos cmp) (rank cmp) {e | e ∈ b.entries} p₀ call p') := by
  obtain ⟨p₀, hidx⟩ := hat.exists_index
  obtain ⟨s, q, hstep, hidx', hmoves⟩ := L.index.moves hidx (hallowed p₀)
  have hintact : L.Intact { it with indexIter := s } :=
    ⟨hat.intact.function_eq, hat.intact.rounds_eq, hat.intact.status_eq, hat.intact.data⟩
  have hcall : ∀ {b : IndexedBlock} {d : I} {p}, b ∈ L.blocks → L.AtData b d p →
      ∃ d' p', DbIterator.step d call = some d' ∧ L.AtData b d' p' ∧
        ∃ p₀, Moves (pos cmp) (rank cmp) {e | e ∈ b.entries} p₀ call p' := fun {b d p} hb hat => by
    obtain ⟨d', q, hstep, hat', hmoves⟩ := (L.data b hb).moves hat (hallowed p)
    exact ⟨d', q, hstep, hat', p, hmoves⟩
  obtain ⟨it₀, it₁, hinit, hdata, harr⟩ := load_spec hintact hidx' (fun e he => hmoves.mem he) hcall
  refine ⟨s, it₀, it₁, q, hstep, hinit, hdata, ?_, ⟨p₀, hmoves⟩, harr⟩
  rcases harr with ⟨-, hnone, -⟩ | ⟨b, p', -, hblk, -⟩
  · exact hnone.toIntact
  · exact hblk.toIntact

theorem left_le {κ : Type*} [LinearOrder κ] {place : Pair → κ} (b : IndexedBlock) :
    entriesFrom place (L.blocks.map indexEntry) b.indexEntry ≤ L.blocks.length :=
  (entriesFrom_le_length _).trans_eq (length_map _)

theorem seekToFirst_spec (hat : L.At it p) :
    ∃ it' q, it.seekToFirst = some it' ∧ L.At it' q ∧
      IsFirst (pos cmp) {e | e ∈ allEntries L.blocks} q := by
  obtain ⟨s, it₀, it₁, q, hstep, hinit, hdata, hit₁, ⟨_, hq⟩, harr⟩ :=
    arrive hat .seekToFirst fun _ => trivial
  have harr' : L.Arrived (pos cmp) {e | e ∈ allEntries L.blocks} L.blocks.length it₁ := by
    rcases harr with ⟨rfl, hnone⟩ | ⟨b, p', rfl, hblk, _, hp'⟩
    · exact .inl ⟨allEntries_eq_empty hq, hnone⟩
    · exact .inr ⟨b, p', hblk, .of_first hblk.mem hq hp', left_le b⟩
  obtain ⟨it', q', hskip, hat', hfst⟩ := skipEmptyDataBlocksForward_spec (fun _ he => he) hit₁ harr'
  refine ⟨it', q', ?_, hat', hfst⟩
  change DbIterator.seekToFirst it.indexIter = some s at hstep
  change it₀.onData DbIterator.seekToFirst = some it₁ at hdata
  simp only [seekToFirst, hstep, hinit, hdata, some_bind]
  exact hskip

theorem seekToLast_spec (hat : L.At it p) :
    ∃ it' q, it.seekToLast = some it' ∧ L.At it' q ∧
      IsLast (pos cmp) {e | e ∈ allEntries L.blocks} q := by
  obtain ⟨s, it₀, it₁, q, hstep, hinit, hdata, hit₁, ⟨_, hq⟩, harr⟩ :=
    arrive hat .seekToLast fun _ => trivial
  have harr' : L.Arrived (fun e => OrderDual.toDual (pos cmp e))
      {e | e ∈ allEntries L.blocks} L.blocks.length it₁ := by
    rcases harr with ⟨rfl, hnone⟩ | ⟨b, p', rfl, hblk, _, hp'⟩
    · exact .inl ⟨allEntries_eq_empty hq, hnone⟩
    · exact .inr ⟨b, p', hblk,
        .of_first hblk.mem (isFirst_toDual.mpr hq) (isFirst_toDual.mpr hp'), left_le b⟩
  obtain ⟨it', q', hskip, hat', hlast⟩ :=
    skipEmptyDataBlocksBackward_spec (fun _ he => he) hit₁ harr'
  refine ⟨it', q', ?_, hat', hlast⟩
  change DbIterator.seekToLast it.indexIter = some s at hstep
  change it₀.onData DbIterator.seekToLast = some it₁ at hdata
  simp only [seekToLast, hstep, hinit, hdata, some_bind]
  exact hskip

/-- What reaches a target is sought from the first block whose key reaches it. -/
theorem reaches_of_seek {target : Bytes} (hb : b ∈ L.blocks) (hfst : IsFirst (pos cmp)
      {e | e ∈ L.blocks.map indexEntry ∧ rank cmp target ≤ pos cmp e} (some b.indexEntry))
    (hp : IsFirst (pos cmp) {e | e ∈ b.entries ∧ rank cmp target ≤ pos cmp e} p) :
    Reaches (pos cmp) L.blocks {e | e ∈ allEntries L.blocks ∧ rank cmp target ≤ pos cmp e} b p where
  first := by
    have hall : ({e | e ∈ b.entries ∧ rank cmp target ≤ pos cmp e} : Set Pair) =
        {e | e ∈ b.entries ∧ e ∈ allEntries L.blocks ∧ rank cmp target ≤ pos cmp e} := by
      ext e
      exact ⟨fun h => ⟨h.1, mem_allEntries.mpr ⟨b, hb, h.1⟩, h.2⟩, fun h => ⟨h.1, h.2.2⟩⟩
    exact hall ▸ hp
  before a ha hlt e he h := by
    have hreach := h.2.trans (L.separated.le_pos ha he)
    exact absurd (hfst.2 _ ⟨mem_map_of_mem ha, hreach⟩) (not_le.mpr hlt)
  behind a ha hlt e he :=
    ⟨mem_allEntries.mpr ⟨a, ha, he⟩, (hfst.1.2.trans_lt (L.separated.pos_lt hb ha hlt he)).le⟩

theorem seek_spec (hat : L.At it p) (target : Bytes) :
    ∃ it' q, it.seek target = some it' ∧ L.At it' q ∧
      IsFirst (pos cmp) {e | e ∈ allEntries L.blocks ∧ rank cmp target ≤ pos cmp e} q := by
  obtain ⟨s, it₀, it₁, q, hstep, hinit, hdata, hit₁, ⟨_, hq⟩, harr⟩ :=
    arrive hat (.seek target) fun _ => trivial
  have harr' : L.Arrived (pos cmp)
      {e | e ∈ allEntries L.blocks ∧ rank cmp target ≤ pos cmp e} L.blocks.length it₁ := by
    rcases harr with ⟨rfl, hnone⟩ | ⟨b, p', rfl, hblk, _, hp'⟩
    · have hq : IsFirst (pos cmp)
          {e | e ∈ L.blocks.map indexEntry ∧ rank cmp target ≤ pos cmp e} none := hq
      refine .inl ⟨Set.eq_empty_of_forall_notMem fun e he => ?_, hnone⟩
      obtain ⟨b, hb, heb⟩ := mem_allEntries.mp he.1
      exact hq.notMem_of_none ⟨mem_map_of_mem hb, he.2.trans (L.separated.le_pos hb heb)⟩
    · exact .inr ⟨b, p', hblk, reaches_of_seek hblk.mem hq hp', left_le b⟩
  obtain ⟨it', q', hskip, hat', hfst⟩ :=
    skipEmptyDataBlocksForward_spec (fun _ he => he.1) hit₁ harr'
  refine ⟨it', q', ?_, hat', hfst⟩
  change DbIterator.seek it.indexIter target = some s at hstep
  change it₀.onData (DbIterator.seek · target) = some it₁ at hdata
  simp only [seek, hstep, hinit, hdata, some_bind]
  exact hskip

/-- A call on the data iterator. -/
theorem AtBlock.onData_spec (h : L.AtBlock it b p) {call : Call Bytes} (hallowed : call.Allowed p) :
    ∃ it' q, it.onData (DbIterator.step · call) = some it' ∧ L.AtBlock it' b q ∧
      Moves (pos cmp) (rank cmp) {e | e ∈ b.entries} p call q := by
  obtain ⟨d, hd, hhandle, hat⟩ := h.dataAt
  obtain ⟨d', q, hstep, hat', hmoves⟩ := (L.data b h.mem).moves hat hallowed
  refine ⟨{ it with dataIter := some d' }, q, by simp [onData, hd, hstep], ?_, hmoves⟩
  exact ⟨⟨h.function_eq, h.rounds_eq, h.status_eq, .inr ⟨b, h.mem, q, d', rfl, hhandle, hat'⟩⟩,
    h.mem, h.index, d', rfl, hhandle, hat'⟩

theorem AtBlock.mem_entries {e : Pair} (h : L.AtBlock it b (some e)) : e ∈ b.entries := by
  obtain ⟨d, -, -, hat⟩ := h.dataAt
  exact L.mem_entries hat

theorem next_spec {e : Pair} (hat : L.At it (some e)) :
    ∃ it' q, it.next = some it' ∧ L.At it' q ∧
      IsFirst (pos cmp) {e' | e' ∈ allEntries L.blocks ∧ pos cmp e < pos cmp e'} q := by
  obtain ⟨b, hblk⟩ := hat
  have hallowed : (Call.next : Call Bytes).Allowed (some e) := rfl
  obtain ⟨it₁, q, hdata, hblk₁, hq⟩ := hblk.onData_spec hallowed
  obtain ⟨it', q', hskip, hat', hfst⟩ := skipEmptyDataBlocksForward_spec (fun _ he => he.1)
    hblk₁.toIntact (.inr ⟨b, q, hblk₁,
      .of_mem L.separated.ordered hblk.mem hblk.mem_entries hq, left_le b⟩)
  refine ⟨it', q', ?_, hat', hfst⟩
  change it.onData DbIterator.next = some it₁ at hdata
  simp only [next, guard, hblk.valid_eq, Option.isSome_some, if_true, hdata, Option.bind_eq_bind,
    Option.bind_some, Option.pure_def]
  exact hskip

theorem prev_spec {e : Pair} (hat : L.At it (some e)) :
    ∃ it' q, it.prev = some it' ∧ L.At it' q ∧
      IsLast (pos cmp) {e' | e' ∈ allEntries L.blocks ∧ pos cmp e' < pos cmp e} q := by
  obtain ⟨b, hblk⟩ := hat
  have hallowed : (Call.prev : Call Bytes).Allowed (some e) := rfl
  obtain ⟨it₁, q, hdata, hblk₁, hq⟩ := hblk.onData_spec hallowed
  obtain ⟨it', q', hskip, hat', hlast⟩ := skipEmptyDataBlocksBackward_spec (fun _ he => he.1)
    hblk₁.toIntact (.inr ⟨b, q, hblk₁, .of_mem L.separated.ordered.dual hblk.mem
      hblk.mem_entries (isFirst_toDual.mpr hq), left_le b⟩)
  refine ⟨it', q', ?_, hat', hlast⟩
  change it.onData DbIterator.prev = some it₁ at hdata
  simp only [prev, guard, hblk.valid_eq, Option.isSome_some, if_true, hdata, Option.bind_eq_bind,
    Option.bind_some, Option.pure_def]
  exact hskip

theorem tracks : DbIterator.SoundTracks cmp {e | e ∈ allEntries L.blocks} L.At where
  shows hat := At.showsOk hat
  moves {it p call} hat hallowed := by
    cases call with
    | seekToFirst => exact seekToFirst_spec hat
    | seekToLast => exact seekToLast_spec hat
    | seek target => exact seek_spec hat target
    | next =>
      cases p with
      | none => cases hallowed
      | some e => exact next_spec hat
    | prev =>
      cases p with
      | none => cases hallowed
      | some e => exact prev_spec hat

end Levels

/-- **The two-level iterator is a cursor over the blocks one after the other**, of which any may be
empty. -/
theorem sound {blocks : List IndexedBlock} (hsep : Separated cmp blocks) {indexIter : O}
    (hidx : DbIterator.Sound cmp (blocks.map indexEntry) indexIter)
    {blockFunction : Bytes → Result I} (hopens : ∀ b ∈ blocks, ∃ d, blockFunction b.handle = .ok d ∧
      DbIterator.Sound cmp b.entries d) {rounds : ℕ} (hrounds : blocks.length < rounds) :
    DbIterator.Sound cmp (allEntries blocks)
      ({ indexIter, blockFunction, rounds } : TwoLevelIterator O I) := by
  obtain ⟨AtIndex, htracks, hstart⟩ := hidx.tracks hsep.pairwise_index
  have hdata : ∀ b : IndexedBlock, ∃ At : I → Option Pair → Prop, b ∈ blocks →
      DbIterator.SoundTracks cmp {e | e ∈ b.entries} At ∧
        ∃ d, blockFunction b.handle = .ok d ∧ At d none := by
    intro b
    by_cases hb : b ∈ blocks
    · obtain ⟨d, hopen, hsound⟩ := hopens b hb
      obtain ⟨At, htracks, hat⟩ := hsound.tracks (hsep.sorted b hb)
      exact ⟨At, fun _ => ⟨htracks, d, hopen, hat⟩⟩
    · exact ⟨fun _ _ => False, fun h => absurd h hb⟩
  choose AtData hAtData using hdata
  let L : Levels cmp O I :=
    { blocks
      separated := hsep
      AtIndex
      index := htracks
      AtData := fun b d p => AtData b d p ∧ ∀ e ∈ p, e ∈ b.entries
      data := fun b hb => (hAtData b hb).1.inSet
      mem_entries := fun hat => hat.2 _ rfl
      openBlock := blockFunction
      opens := fun b hb => by
        obtain ⟨-, d, hopen, hat⟩ := hAtData b hb
        exact ⟨d, hopen, hat, fun _ he => by cases he⟩
      rounds
      lt_rounds := hrounds }
  refine DbIterator.sound_of_tracks L.tracks hsep.pairwise_allEntries ?_
  exact ⟨⟨rfl, rfl, rfl, .inl rfl⟩, ⟨none, hstart⟩, rfl⟩

end TwoLevelIterator

end PulsearcDb
