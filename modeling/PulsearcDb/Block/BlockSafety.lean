import PulsearcDb.Block.BlockSearch

/-!
# Iterators over arbitrary blocks

The bytes of a block come from a file, and `Block::new` accepts them when there is room for the
restart points. `BlockIter.Safe` says what should then hold of every finite sequence of calls: all
calls return, so that no access is outside the block, a valid iterator shows an entry that was
decoded inside the entry region, and a call that meets malformed contents does not end at an
invalid iterator without an error.

Entries that cannot be decoded are reported wherever they are. The restart points are not checked:
`seek` panics at one behind the entries, the other calls take it for the end of the entries, and
`seek` compares with whatever bytes it finds at one. Where the restart points are placed at entries
(`Block.RestartsPlaced`), reading is safe; `BlockIter.step_spec` is what one call does then.
-/

namespace PulsearcDb

open Cursor List

namespace Block

variable (block : Block)

/-- The last restart point before an offset, from a restart index on. -/
def restartBefore (offset : ℕ) : ℕ → Option ℕ
  | 0 => if block.restart 0 ≥ offset then none else some 0
  | idx + 1 => if block.restart (idx + 1) ≥ offset then restartBefore offset idx else some (idx + 1)

/-- The restart points that the bisection of `seek` looks at. -/
def probes (cmp : Compare) (target : Bytes) (left right : ℕ) : List ℕ :=
  if _hlt : left < right then
    match block.restartKey (block.restart (middle left right)) with
    | .error _ => [middle left right]
    | .ok key =>
      if (cmp key target).isLT then middle left right :: probes cmp target (middle left right) right
      else middle left right :: probes cmp target left (middle left right - 1)
  else []
termination_by right - left
decreasing_by
  all_goals
    have := middle_bounds _hlt
    omega

/-- An entry can be decoded at the restart point. -/
def EntryAt (idx : ℕ) : Prop := ∃ e, block.decodeEntry (block.restart idx) [] = .ok e

/-- A restart point that is not among the entries. A block without entries may have the first
restart point, which is 0. -/
def Stray (idx : ℕ) : Prop :=
  block.restartOffset ≤ block.restart idx ∧ (idx = 0 → block.restart idx ≠ 0)

/-- **The restart points are placed at entries.** Garbage is allowed there as long as `seek` does
not take it for a key. -/
structure RestartsPlaced : Prop where
  exist : 0 < block.restartOffset → 0 < block.numRestarts
  not_stray : ∀ idx < block.numRestarts, ¬ block.Stray idx
  entryAt : ∀ idx < block.numRestarts, 0 < idx → ∀ key,
    block.restartKey (block.restart idx) = .ok key → block.EntryAt idx

variable {block} {cmp : Compare} {target : Bytes} {left right idx : ℕ}

theorem bounds_of_mem_probes (h : idx ∈ block.probes cmp target left right) :
    left < idx ∧ idx ≤ right := by
  fun_induction probes block cmp target left right with
  | case1 left right hlt msg hkey =>
    rw [mem_singleton] at h
    exact h ▸ middle_bounds hlt
  | case2 left right hlt key hkey hless ih =>
    have hmid := middle_bounds hlt
    rcases mem_cons.mp h with rfl | hmem
    · exact hmid
    · have := ih hmem
      omega
  | case3 left right hlt key hkey hless ih =>
    have hmid := middle_bounds hlt
    rcases mem_cons.mp h with rfl | hmem
    · exact hmid
    · have := ih hmem
      omega
  | case4 => cases h

/-- The bisection ends at a restart point whose key it cannot read. -/
theorem bisect_of_mem_probes {msg : String} (h : idx ∈ block.probes cmp target left right)
    (hinside : ∀ i, left < i → i ≤ right → block.restart i ≤ block.restartOffset)
    (hkey : block.restartKey (block.restart idx) = .error msg) :
    block.bisect cmp target left right = .undecodable msg := by
  fun_induction bisect block cmp target left right with
  | case1 left right hlt hout =>
    obtain ⟨hleft, hright⟩ := middle_bounds hlt
    exact absurd (hinside _ hleft hright) hout.not_ge
  | case2 left right hlt hin msg' hmid =>
    rw [probes, dif_pos hlt, hmid, mem_singleton] at h
    rw [h, hmid] at hkey
    rw [Except.error.inj hkey]
  | case3 left right hlt hin key hmid hless ih =>
    have hbounds := middle_bounds hlt
    rw [probes, dif_pos hlt, hmid] at h
    simp only [if_pos hless, mem_cons] at h
    rcases h with rfl | hmem
    · cases hmid.symm.trans hkey
    · exact ih hmem fun i hi hle => hinside i (by omega) hle
  | case4 left right hlt hin key hmid hless ih =>
    have hbounds := middle_bounds hlt
    rw [probes, dif_pos hlt, hmid] at h
    simp only [if_neg hless, mem_cons] at h
    rcases h with rfl | hmem
    · cases hmid.symm.trans hkey
    · exact ih hmem fun i hi hle => hinside i hi (by omega)
  | case5 left right hlt =>
    rw [probes, dif_neg hlt] at h
    cases h

theorem bisect_ne_outside
    (hinside : ∀ i, left < i → i ≤ right → block.restart i ≤ block.restartOffset) :
    block.bisect cmp target left right ≠ .outside := by
  fun_induction bisect block cmp target left right with
  | case1 left right hlt hout =>
    obtain ⟨hleft, hright⟩ := middle_bounds hlt
    exact absurd (hinside _ hleft hright) hout.not_ge
  | case2 => exact fun h => by cases h
  | case3 left right hlt hin key hmid hless ih =>
    exact ih fun i hi hle => hinside i ((middle_bounds hlt).1.trans hi) hle
  | case4 left right hlt hin key hmid hless ih =>
    have hbounds := middle_bounds hlt
    exact ih fun i hi hle => hinside i hi (by omega)
  | case5 => exact fun h => by cases h

theorem RestartsPlaced.restart_le (h : block.RestartsPlaced) (hidx : idx < block.numRestarts)
    (hpos : 0 < idx) : block.restart idx ≤ block.restartOffset := by
  by_contra hlt
  exact h.not_stray idx hidx ⟨(not_le.mp hlt).le, fun hzero => absurd hzero hpos.ne'⟩

end Block

namespace BlockIter

variable {cmp : Compare}

/-- `prev` is only called on a valid iterator. -/
def Allowed (it : BlockIter cmp) : Call Bytes → Prop
  | .prev => it.valid = true
  | _ => True

/-- The iterators after finite sequences of calls. -/
inductive Reachable (block : Block) : BlockIter cmp → Prop
  | new : Reachable block { block }
  | call {it it' : BlockIter cmp} {call : Call Bytes} : Reachable block it → it.Allowed call →
      DbIterator.step it call = some it' → Reachable block it'

/-- The restart point that a call starts from, if it comes to this. -/
def start (it : BlockIter cmp) : Call Bytes → Option ℕ
  | .seekToFirst => if it.block.numRestarts = 0 then none else some 0
  | .seekToLast => if it.block.numRestarts = 0 then none else some (it.block.numRestarts - 1)
  | .seek target =>
    if it.block.numRestarts = 0 then none
    else match it.block.bisect cmp target 0 (it.block.numRestarts - 1) with
      | .restart idx => some idx
      | _ => none
  | .next => none
  | .prev => it.block.restartBefore it.currentOffset it.restartIndex

/-- The entries at which a call stops. -/
def stops (it : BlockIter cmp) : Call Bytes → DecodedEntry → Bool
  | .seekToLast, e => it.block.restartOffset ≤ e.next
  | .seek target, e => (cmp e.key target).isGE
  | .prev, e => it.currentOffset ≤ e.next
  | _, _ => true

/-- Where the entries end that a call reads, if it reads any: behind a restart point or, for `next`,
behind the current entry. -/
def reads (it : BlockIter cmp) : Call Bytes → Option ScanEnd
  | .next => some (it.block.scan (it.stops .next) it.nextEntryOffset it.key.deref)
  | call => (it.start call).map fun idx => it.block.scan (it.stops call) (it.block.restart idx) []

/-- **The call meets malformed contents**: entries without restart points, a restart point that is
not among the entries, bytes that are no entry where the call reads one, or bytes that are no entry
at a restart point that the bisection of `seek` looks at. -/
inductive MeetsMalformed (it : BlockIter cmp) : Call Bytes → Prop
  | unreachable {call : Call Bytes} : it.block.numRestarts = 0 → 0 < it.block.restartOffset →
      MeetsMalformed it call
  | stray {call : Call Bytes} {idx : ℕ} : it.start call = some idx → it.block.Stray idx →
      MeetsMalformed it call
  | undecodable {call : Call Bytes} {msg : String} : it.reads call = some (.undecodable msg) →
      MeetsMalformed it call
  | probe {target : Bytes} {idx : ℕ} :
      idx ∈ it.block.probes cmp target 0 (it.block.numRestarts - 1) → ¬ it.block.EntryAt idx →
      MeetsMalformed it (.seek target)

/-- A valid iterator shows an entry that was decoded inside the entry region. -/
def Contained (it : BlockIter cmp) : Prop :=
  it.valid = true → ∃ lastKey, it.block.decodeEntry it.currentOffset lastKey =
    .ok ⟨it.key.deref, it.valueOffset, it.valueLen, it.nextEntryOffset⟩ ∧
      it.nextEntryOffset ≤ it.block.restartOffset ∧ it.value.isSome

/-- **Reading a block is safe**: every call on every iterator returns, a valid iterator shows an
entry inside the entry region, and a call that meets malformed contents ends at such an entry or
with an error. -/
def Safe (cmp : Compare) (block : Block) : Prop :=
  ∀ it : BlockIter cmp, Reachable block it → it.Contained ∧ ∀ call, it.Allowed call →
    ∃ it', DbIterator.step it call = some it' ∧
      (it.MeetsMalformed call → it'.valid = false → it'.status ≠ .ok ())

variable {it it' : BlockIter cmp} {block : Block}

/-- What holds of every iterator over a block. -/
structure Inv (block : Block) (it : BlockIter cmp) : Prop where
  block_eq : it.block = block
  valid : it.valid = true → it.restartIndex < block.numRestarts ∧
    ∃ lastKey, block.decodeEntry it.currentOffset lastKey =
      .ok ⟨it.key.deref, it.valueOffset, it.valueLen, it.nextEntryOffset⟩
  left : it.valid = false → it.currentOffset = block.restartOffset ∧
    it.nextEntryOffset = block.restartOffset
  index_le : it.restartIndex ≤ block.numRestarts

theorem inv_new (block : Block) : Inv block ({ block } : BlockIter cmp) where
  block_eq := rfl
  valid h := by cases h
  left _ := ⟨rfl, rfl⟩
  index_le := le_rfl

theorem inv_of_left (hblk : it.block = block) (hv : it.valid = false)
    (hleft : it.currentOffset = block.restartOffset ∧ it.nextEntryOffset = block.restartOffset)
    (hindex : it.restartIndex ≤ block.numRestarts) : Inv block it where
  block_eq := hblk
  valid h := by rw [hv] at h; cases h
  left _ := hleft
  index_le := hindex

theorem Inv.contained (h : Inv block it) : it.Contained := by
  intro hv
  obtain ⟨-, lastKey, hdec⟩ := h.valid hv
  obtain ⟨-, hval, hle, hlength⟩ := Block.bounds_of_decodeEntry hdec
  dsimp only at hval hle hlength
  rw [h.block_eq]
  refine ⟨lastKey, hdec, hle, ?_⟩
  have hin : it.valueOffset + it.valueLen ≤ it.block.bytes.length := by
    rw [h.block_eq, hval]
    exact hlength
  rw [value, guard, if_pos hin]
  rfl

/-- The iterator is where a scan ended. -/
theorem EndsAt.inv {status : Result Unit} {stop : DecodedEntry → Bool} {offset : ℕ}
    {lastKey : Bytes} (h : EndsAt block status it (block.scan stop offset lastKey))
    (hindex : it.valid = true → it.restartIndex < block.numRestarts)
    (hle : it.restartIndex ≤ block.numRestarts) : Inv block it := by
  refine ⟨h.block_eq, fun hv => ⟨hindex hv, ?_⟩, fun hv => ?_, hle⟩
  · rcases hscan : block.scan stop offset lastKey with ⟨found, e⟩ | _ | msg
    · obtain ⟨-, -, hcur, hnext, hkey, hoff, hlen⟩ := h.found hscan
      obtain ⟨key, hdec⟩ := Block.decodeEntry_of_scan hscan
      refine ⟨key, ?_⟩
      rw [hcur, hnext, hkey, hoff, hlen, hdec]
    all_goals
      have hleft := (h.left fun offset e heq => by rw [hscan] at heq; cases heq).1
      rw [hleft] at hv
      cases hv
  · rcases hscan : block.scan stop offset lastKey with ⟨found, e⟩ | _ | msg
    · rw [(h.found hscan).1] at hv
      cases hv
    all_goals exact (h.left fun offset e heq => by rw [hscan] at heq; cases heq).2

theorem EndsAt.withIndex {status : Result Unit} {r : ScanEnd} (h : EndsAt block status it r)
    (idx : ℕ) : EndsAt block status ({ it with restartIndex := idx } : BlockIter cmp) r :=
  ⟨h.block_eq, h.found, h.left, h.atEnd, h.undecodable⟩

section Accepted

variable (hacc : block.Accepted)
include hacc

/-- The loop of `next` only moves the restart index. -/
theorem exists_advanceRestart {rounds : ℕ} {it : BlockIter cmp} (hblk : it.block = block)
    (hrounds : block.numRestarts - it.restartIndex < rounds)
    (hindex : it.restartIndex ≤ block.numRestarts) :
    ∃ idx, advanceRestart rounds it = some { it with restartIndex := idx } ∧
      (it.restartIndex < block.numRestarts → idx < block.numRestarts) ∧
      idx ≤ block.numRestarts := by
  induction rounds generalizing it with
  | zero => exact absurd hrounds (Nat.not_lt_zero _)
  | succ rounds ih =>
    subst hblk
    rw [advanceRestart]
    split_ifs with hlt
    · rw [readRestart_of_accepted hacc hlt.le]
      simp only [some_bind]
      split_ifs with hle
      · obtain ⟨idx, hadvance, hlt', hle'⟩ :=
          @ih { it with restartIndex := it.restartIndex + 1 } rfl
          (by dsimp only; omega) hlt.le
        exact ⟨idx, hadvance, fun _ => hlt' hlt, hle'⟩
      · exact ⟨it.restartIndex, rfl, id, hindex⟩
    · exact ⟨it.restartIndex, rfl, id, hindex⟩

theorem retreatRestart_eq (hblk : it.block = block) (offset : ℕ) {idx : ℕ}
    (hidx : idx ≤ block.numRestarts) :
    it.retreatRestart offset idx = some (block.restartBefore offset idx) := by
  subst hblk
  induction idx with
  | zero =>
    rw [retreatRestart, readRestart_of_accepted hacc hidx, Block.restartBefore]
    rfl
  | succ idx ih =>
    rw [retreatRestart, readRestart_of_accepted hacc hidx, Block.restartBefore]
    simp only [some_bind]
    split_ifs with hge
    · exact ih (Nat.le_of_succ_le hidx)
    · rfl

omit hacc in
theorem of_restartBefore {offset idx found : ℕ} (h : block.restartBefore offset idx = some found) :
    found ≤ idx ∧ block.restart found < offset := by
  induction idx with
  | zero =>
    rw [Block.restartBefore] at h
    split_ifs at h with hge
    cases h
    exact ⟨le_rfl, not_le.mp hge⟩
  | succ idx ih =>
    rw [Block.restartBefore] at h
    split_ifs at h with hge
    · obtain ⟨hle, hlt⟩ := ih h
      exact ⟨hle.trans (Nat.le_succ idx), hlt⟩
    · cases h
      exact ⟨le_rfl, not_le.mp hge⟩

/-! ### The calls -/

omit hacc in
theorem start_lt (h : Inv block it) {call : Call Bytes} (hall : it.Allowed call) {idx : ℕ}
    (hs : it.start call = some idx) : idx < block.numRestarts := by
  obtain rfl := h.block_eq
  cases call with
  | seekToFirst =>
    simp only [start] at hs
    split_ifs at hs with hzero
    cases hs
    omega
  | seekToLast =>
    simp only [start] at hs
    split_ifs at hs with hzero
    cases hs
    omega
  | seek target =>
    simp only [start] at hs
    split_ifs at hs with hzero
    rcases hb : it.block.bisect cmp target 0 (it.block.numRestarts - 1) with found | msg | _
    · rw [hb] at hs
      cases hs
      have := (Block.restart_le_of_bisect hb).2
      omega
    all_goals
      rw [hb] at hs
      cases hs
  | next => cases hs
  | prev =>
    obtain ⟨hlt, -⟩ := h.valid hall
    have := (of_restartBefore hs).1
    omega

/-- A call goes on from an entry at which it does not stop. -/
def goesOn (it : BlockIter cmp) (call : Call Bytes) (it' : BlockIter cmp) : Bool :=
  !it.stops call ⟨it'.key.deref, it'.valueOffset, it'.valueLen, it'.nextEntryOffset⟩

omit hacc in
theorem goesOn_eq (it : BlockIter cmp) (call : Call Bytes) (it' : BlockIter cmp) (e : DecodedEntry)
    (hnext : it'.nextEntryOffset = e.next) (hkey : it'.key.deref = e.key) :
    it.goesOn call it' = !it.stops call e := by
  cases call <;> simp only [goesOn, stops, hnext, hkey]

/-- **Every call from a restart point** is the same loop. -/
theorem step_eq_parseLoop (h : Inv block it) {call : Call Bytes} {idx : ℕ}
    (hs : it.start call = some idx) :
    DbIterator.step it call =
      it.seekToRestartPoint idx >>= fun it' => parseLoop (it.goesOn call) it'.rounds it' := by
  obtain rfl := h.block_eq
  cases call with
  | seekToFirst =>
    simp only [start] at hs
    split_ifs at hs with hzero
    cases hs
    change it.seekToFirst = _
    rw [seekToFirst, if_neg hzero]
    simp only [rounds, parseLoop, goesOn, stops, Bool.not_true, Bool.and_false,
      Bool.false_eq_true, if_false]
    rfl
  | seekToLast =>
    simp only [start] at hs
    split_ifs at hs with hzero
    cases hs
    change it.seekToLast = _
    have hgoes : it.goesOn .seekToLast =
        fun it' => decide (it'.nextEntryOffset < it.block.restartOffset) := by
      funext it'
      simp only [goesOn, stops, ← not_lt, decide_not, Bool.not_not]
    rw [seekToLast, if_neg hzero, hgoes, seekToRestartPoint_eq hacc (Nat.sub_le _ 1)]
    simp only [parseUntil_eq]
    rfl
  | seek target =>
    simp only [start] at hs
    split_ifs at hs with hzero
    have hrounds : it.block.numRestarts - 1 - 0 < it.rounds := by
      rw [rounds, hacc]
      omega
    have hb := bisect_eq hacc target hrounds (Nat.sub_le _ _)
    rcases hend : it.block.bisect cmp target 0 (it.block.numRestarts - 1) with found | msg | _
    · rw [hend] at hs hb
      cases hs
      change it.seek target = _
      rw [seek, if_neg hzero, hb]
      simp only [some_bind, parseTo_eq]
      rfl
    all_goals
      rw [hend] at hs
      cases hs
  | next => cases hs
  | prev =>
    change it.prev = _
    have hgoes : it.goesOn .prev = fun it' => decide (it'.nextEntryOffset < it.currentOffset) := by
      funext it'
      simp only [goesOn, stops, ← not_lt, decide_not, Bool.not_not]
    rw [prev, retreatRestart_eq hacc rfl _ h.index_le, hgoes,
      show it.block.restartBefore _ _ = _ from hs]
    simp only [some_bind, parseUntil_eq]

theorem next_endsAt (h : Inv block it) :
    ∃ it', it.next = some it' ∧ EndsAt block it.status it'
        (block.scan (fun _ => true) it.nextEntryOffset it.key.deref) ∧
      (it'.valid = true → it'.restartIndex < block.numRestarts) ∧
      it'.restartIndex ≤ block.numRestarts := by
  obtain rfl := h.block_eq
  obtain ⟨parsed, it₁, hparse, hindex, hends⟩ := it.parseNextEntry_endsAt (restartOffset_le hacc)
  obtain ⟨idx, hadvance, hlt, hle⟩ := @exists_advanceRestart cmp it.block hacc it₁.rounds
    it₁ hends.block_eq (by rw [rounds, hends.block_eq, hacc]; omega) (hindex ▸ h.index_le)
  refine ⟨_, ?_, hends.withIndex idx, fun hv => hlt ?_, hle⟩
  · rw [next, hparse]
    exact hadvance
  -- only a valid iterator reads an entry
  rw [hindex]
  refine (h.valid (Bool.not_eq_false _ ▸ fun hinvalid => ?_)).1
  have hnext := (h.left hinvalid).2
  have hleft := (hends.left fun offset e heq => by
    rw [Block.scan_atEnd hnext.ge] at heq
    cases heq).1
  rw [show it₁.valid = true from hv] at hleft
  cases hleft

/-- **A call that reads entries** ends where they do. -/
theorem step_reads (h : Inv block it) {call : Call Bytes} (hall : it.Allowed call)
    {r : ScanEnd} (hr : it.reads call = some r) :
    ∃ it', DbIterator.step it call = some it' ∧ Inv block it' ∧ EndsAt block it.status it' r := by
  have hres : (it.start call).map (fun idx =>
      it.block.scan (it.stops call) (it.block.restart idx) []) = some r →
      ∃ it', DbIterator.step it call = some it' ∧ Inv block it' ∧ EndsAt block it.status it' r := by
    intro hr'
    obtain ⟨idx, hs, rfl⟩ := Option.map_eq_some_iff.mp hr'
    have hlt := start_lt h hall hs
    rw [step_eq_parseLoop hacc h hs]
    obtain rfl := h.block_eq
    obtain ⟨it', hloop, hindex, hends⟩ := parseLoop_restart hacc (it.goesOn_eq call) hlt.le
    exact ⟨it', hloop, hends.inv (fun _ => hindex ▸ hlt) (hindex ▸ hlt.le), hends⟩
  cases call with
  | next =>
    cases hr
    obtain ⟨it', hnext, hends, hindex, hle⟩ := next_endsAt hacc h
    rw [h.block_eq]
    exact ⟨it', hnext, hends.inv hindex hle, hends⟩
  | _ => exact hres hr

omit hacc in
/-- What is left of malformed contents where the restart points are placed at entries. -/
theorem MeetsMalformed.undecodable_of_placed (h : Inv block it) (hp : block.RestartsPlaced)
    {call : Call Bytes} (hall : it.Allowed call) (hm : it.MeetsMalformed call) :
    (∃ msg, it.reads call = some (.undecodable msg)) ∨ ∃ target msg, call = .seek target ∧
      block.numRestarts ≠ 0 ∧
      block.bisect cmp target 0 (block.numRestarts - 1) = .undecodable msg := by
  have hblk := h.block_eq
  cases hm with
  | unreachable hzero hpos =>
    rw [hblk] at hzero hpos
    exact absurd hzero (hp.exist hpos).ne'
  | stray hs hstray =>
    exact absurd (hblk ▸ hstray) (hp.not_stray _ (start_lt h hall hs))
  | undecodable hr => exact .inl ⟨_, hr⟩
  | @probe target idx hmem hentry =>
    rw [hblk] at hmem hentry
    obtain ⟨hpos, hle⟩ := Block.bounds_of_mem_probes hmem
    rcases hkey : block.restartKey (block.restart idx) with msg | key
    · refine .inr ⟨target, msg, rfl, by omega, Block.bisect_of_mem_probes hmem ?_ hkey⟩
      exact fun i hi hle' => hp.restart_le (by omega) hi
    · exact absurd (hp.entryAt idx (by omega) hpos key hkey) hentry

/-- A call that reads no entries: on a block without restart points, at a restart point that cannot
be decoded, or before the first entry. -/
theorem step_of_reads_eq_none (h : Inv block it) (hp : block.RestartsPlaced)
    {call : Call Bytes} (hall : it.Allowed call) (hr : it.reads call = none) :
    ∃ it', DbIterator.step it call = some it' ∧ Inv block it' ∧
      ((∃ target msg, call = .seek target ∧ block.numRestarts ≠ 0 ∧
        block.bisect cmp target 0 (block.numRestarts - 1) = .undecodable msg) →
        it'.status ≠ .ok ()) := by
  obtain rfl := h.block_eq
  -- on a block without restart points nothing is read
  have hempty : it.block.numRestarts = 0 →
      Inv it.block ({ it with valid := false } : BlockIter cmp) := by
    intro hzero
    refine inv_of_left rfl rfl ?_ h.index_le
    rcases hv : it.valid with _ | _
    · exact h.left hv
    · have := (h.valid hv).1
      omega
  cases call with
  | seekToFirst =>
    have hzero : it.block.numRestarts = 0 := by
      by_contra hne
      simp [reads, start, hne] at hr
    exact ⟨_, if_pos hzero, hempty hzero, by rintro ⟨_, _, ⟨⟩, _⟩⟩
  | seekToLast =>
    have hzero : it.block.numRestarts = 0 := by
      by_contra hne
      simp [reads, start, hne] at hr
    exact ⟨_, if_pos hzero, hempty hzero, by rintro ⟨_, _, ⟨⟩, _⟩⟩
  | seek target =>
    by_cases hzero : it.block.numRestarts = 0
    · refine ⟨_, if_pos hzero, hempty hzero, ?_⟩
      rintro ⟨_, _, _, hne, _⟩
      exact absurd hzero hne
    have hspec := seek_endsAt hacc (fun hzero' => absurd hzero' hzero) target
    rw [Block.seek, if_neg hzero] at hspec
    rcases hb : it.block.bisect cmp target 0 (it.block.numRestarts - 1) with idx | msg | _
    · simp [reads, start, hzero, hb] at hr
    · rw [hb] at hspec
      obtain ⟨it', hseek, hends, hindex, hle⟩ := hspec
      have hleft := hends.left fun offset e heq => by cases heq
      refine ⟨it', hseek, inv_of_left hends.block_eq hleft.1 hleft.2
        (hle.trans (max_le h.index_le le_rfl)), fun _ => ?_⟩
      rw [hends.undecodable rfl]
      exact fun heq => by cases heq
    · exact absurd hb (Block.bisect_ne_outside fun i hi hle =>
        hp.restart_le (by omega) hi)
  | next => cases hr
  | prev =>
    simp only [reads, Option.map_eq_none_iff] at hr
    refine ⟨{ it.leave with restartIndex := 0 }, ?_,
      inv_of_left rfl rfl ⟨rfl, rfl⟩ (Nat.zero_le _), by rintro ⟨_, _, ⟨⟩, _⟩⟩
    change it.prev = _
    rw [prev, retreatRestart_eq hacc rfl _ h.index_le,
      show it.block.restartBefore _ _ = none from hr]
    rfl

/-- **One call on a block whose restart points are placed at entries.** -/
theorem step_spec (h : Inv block it) (hp : block.RestartsPlaced) {call : Call Bytes}
    (hall : it.Allowed call) :
    ∃ it', DbIterator.step it call = some it' ∧ Inv block it' ∧
      (it.MeetsMalformed call → it'.status ≠ .ok ()) := by
  rcases hr : it.reads call with _ | r
  · obtain ⟨it', hstep, hinv, hstat⟩ := step_of_reads_eq_none hacc h hp hall hr
    refine ⟨it', hstep, hinv, fun hm => hstat ?_⟩
    refine (hm.undecodable_of_placed h hp hall).resolve_left fun ⟨msg, hsome⟩ => ?_
    cases hr.symm.trans hsome
  · obtain ⟨it', hstep, hinv, hends⟩ := step_reads hacc h hall hr
    refine ⟨it', hstep, hinv, fun hm => ?_⟩
    rcases hm.undecodable_of_placed h hp hall with
      ⟨msg, hsome⟩ | ⟨target, msg, rfl, hne, hb⟩
    · obtain rfl := Option.some.inj (hr.symm.trans hsome)
      rw [hends.undecodable rfl]
      exact fun heq => by cases heq
    · rw [← h.block_eq] at hne hb
      simp [reads, start, hne, hb] at hr

/-- Every iterator over such a block. -/
theorem Reachable.inv (hp : block.RestartsPlaced) (h : Reachable block it) :
    Inv block it := by
  induction h with
  | new => exact inv_new block
  | call _ hall hstep ih =>
    obtain ⟨it', hstep', hinv, -⟩ := step_spec hacc ih hp hall
    obtain rfl := Option.some.inj (hstep.symm.trans hstep')
    exact hinv

/-! ### When reading is safe -/

omit hacc in
/-- A call that meets malformed contents and ends without an error. -/
theorem not_safe_of_silent {call : Call Bytes} (hall : ({ block } : BlockIter cmp).Allowed call)
    (hstep : DbIterator.step ({ block } : BlockIter cmp) call = some it')
    (hm : ({ block } : BlockIter cmp).MeetsMalformed call) (hv : it'.valid = false)
    (hstat : it'.status = .ok ()) : ¬ Safe cmp block := by
  intro hsafe
  obtain ⟨it'', hstep', hmal⟩ := (hsafe _ .new).2 call hall
  obtain rfl := Option.some.inj (hstep.symm.trans hstep')
  exact hmal hm hv hstat

/-- A restart point that is not among the entries is taken for their end, without an error. -/
theorem not_stray_of_safe (hsafe : Safe cmp block) {call : Call Bytes}
    (hall : ({ block } : BlockIter cmp).Allowed call) {idx : ℕ}
    (hs : ({ block } : BlockIter cmp).start call = some idx) : ¬ block.Stray idx := by
  intro hstray
  have hlt := start_lt (inv_new block) hall hs
  have hstep := step_eq_parseLoop hacc (inv_new block) hs
  obtain ⟨it', hloop, -, hends⟩ := @parseLoop_restart cmp { block } hacc _ _
    (({ block } : BlockIter cmp).goesOn_eq call) idx hlt.le
  rw [Block.scan_atEnd hstray.1] at hends
  exact not_safe_of_silent hall (hstep.trans hloop) (.stray hs hstray)
    (hends.left fun _ _ heq => by cases heq).1 (hends.atEnd rfl) hsafe

end Accepted

end BlockIter

end PulsearcDb
