import PulsearcDb.Block.BlockIter

/-!
# Reading arbitrary blocks

`Block::new` checks no more than the number of restart points, so that the bytes of a block may be
anything. This module says what is read of such bytes, without an iterator: an entry is decoded at
an offset with the key before it (`Block.decodeEntry`), entries are scanned until one is good enough
(`Block.scan`), and a target is sought by bisection over the restart points (`Block.bisect`) and a
scan from the one that was found (`Block.seek`).

The calls of `BlockIter` follow these functions on the bytes of every block that `Block::new`
accepts (`BlockIter.parseLoop_spec`, `BlockIter.seek_endsAt`). A restart point behind the entries is
read as a slice that ends before it starts; there `seek` panics.
-/

namespace PulsearcDb

/-! ### Entries -/

/-- An entry as it is decoded, with the offset of the entry behind it. -/
structure DecodedEntry where
  key : Bytes
  valueOffset : ℕ
  valueLen : ℕ
  next : ℕ

/-- Where a scan ends: at an entry, behind the last entry, or at bytes that are no entry. -/
inductive ScanEnd
  | found (offset : ℕ) (e : DecodedEntry)
  | atEnd
  | undecodable (msg : String)

/-- Where a bisection ends. -/
inductive BisectEnd
  | restart (idx : ℕ)
  | undecodable (msg : String)
  | outside
  deriving DecidableEq

namespace Block

variable (block : Block)

/-- The number of restart points that `Block::new` accepts. -/
def Accepted : Prop := block.bytes.length = block.restartOffset + block.numRestarts * 4 + 4

/-- The offset of a restart point. -/
def restart (idx : ℕ) : ℕ := decodeFixed32 (block.bytes.drop (block.restartOffset + idx * 4))

/-- The bytes of the entries from an offset on. -/
def entriesFrom (offset : ℕ) : Bytes := (block.bytes.take block.restartOffset).drop offset

/-- The entry at an offset, behind an entry with the key `lastKey`. -/
def decodeEntry (offset : ℕ) (lastKey : Bytes) : Except String DecodedEntry :=
  match getVarint32 (block.entriesFrom offset) with
  | (none, _) => .error "bad shared"
  | (some shared, p₁) =>
    match getVarint32 p₁ with
    | (none, _) => .error "bad unshared"
    | (some unshared, p₂) =>
      match getVarint32 p₂ with
      | (none, _) => .error "bad value_len"
      | (some valueLen, p₃) =>
        if p₃.length < unshared + valueLen then .error "truncated entry"
        else if shared > lastKey.length then .error "shared > prev key len"
        else
          let keyPos := offset + ((block.entriesFrom offset).length - p₃.length)
          .ok
            { key := lastKey.take shared ++ (block.bytes.drop keyPos).take unshared
              valueOffset := keyPos + unshared
              valueLen
              next := keyPos + unshared + valueLen }

/-- The key of a restart point, which the bisection reads without a look at the other lengths. -/
def restartKey (offset : ℕ) : Except String Bytes :=
  match getVarint32 (getVarint32 (block.entriesFrom offset)).2 with
  | (none, _) => .error "bad seek unshared"
  | (some unshared, p₂) =>
    if (getVarint32 p₂).2.length < unshared then .error "truncated seek"
    else .ok ((getVarint32 p₂).2.take unshared)

variable {block}

theorem length_entriesFrom (offset : ℕ) :
    (block.entriesFrom offset).length = min block.restartOffset block.bytes.length - offset := by
  rw [entriesFrom, List.length_drop, List.length_take]

variable {offset : ℕ} {lastKey : Bytes} {e : DecodedEntry} {stop : DecodedEntry → Bool}

/-- **An entry that is decoded lies among the entries**, and the next one is behind it. -/
theorem bounds_of_decodeEntry (h : block.decodeEntry offset lastKey = .ok e) :
    offset < e.valueOffset ∧ e.valueOffset + e.valueLen = e.next ∧ e.next ≤ block.restartOffset ∧
      e.next ≤ block.bytes.length := by
  have hlen := @length_entriesFrom block offset
  rw [decodeEntry] at h
  split at h
  · cases h
  rename_i shared p₁ hshared
  split at h
  · cases h
  rename_i unshared p₂ hunshared
  split at h
  · cases h
  rename_i valueLen p₃ hvalueLen
  have h₁ := length_lt_of_getVarint32 hshared
  have h₂ := length_lt_of_getVarint32 hunshared
  have h₃ := length_lt_of_getVarint32 hvalueLen
  split_ifs at h with htruncated hpre
  cases h
  dsimp only
  omega

/-! ### Scans -/

variable (block)

/-- The entries from an offset on are decoded until one is good enough. -/
def scan (stop : DecodedEntry → Bool) (offset : ℕ) (lastKey : Bytes) : ScanEnd :=
  if _hlt : offset < block.restartOffset then
    match _hdecode : block.decodeEntry offset lastKey with
    | .error msg => .undecodable msg
    | .ok e => if stop e then .found offset e else scan stop e.next e.key
  else .atEnd
termination_by block.restartOffset - offset
decreasing_by
  have := bounds_of_decodeEntry _hdecode
  omega

/-- The restart point that the bisection looks at. -/
def middle (left right : ℕ) : ℕ := left + (right - left + 1) / 2

theorem middle_bounds {left right : ℕ} (h : left < right) :
    left < middle left right ∧ middle left right ≤ right := by
  rw [middle]
  omega

/-- The bisection of `seek`, between two restart points. -/
def bisect (cmp : Compare) (target : Bytes) (left right : ℕ) : BisectEnd :=
  if _hlt : left < right then
    if block.restartOffset < block.restart (middle left right) then .outside
    else match block.restartKey (block.restart (middle left right)) with
      | .error msg => .undecodable msg
      | .ok key =>
        if (cmp key target).isLT then bisect cmp target (middle left right) right
        else bisect cmp target left (middle left right - 1)
  else .restart left
termination_by right - left
decreasing_by
  all_goals
    have := middle_bounds _hlt
    omega

/-- Where the search for a target ends; `none` is a restart point behind the entries. -/
def seek (cmp : Compare) (target : Bytes) : Option ScanEnd :=
  if block.numRestarts = 0 then some .atEnd
  else match block.bisect cmp target 0 (block.numRestarts - 1) with
    | .outside => none
    | .undecodable msg => some (.undecodable msg)
    | .restart idx => some (block.scan (fun e => (cmp e.key target).isGE) (block.restart idx) [])

variable {block}

theorem accepted_of_new {bytes : Bytes} (h : Block.new bytes = .ok block) : block.Accepted := by
  rw [Block.new] at h
  split_ifs at h with hs
  dsimp only at h
  split_ifs at h with hcnt
  cases h
  simp only [Accepted]
  omega

theorem scan_atEnd (h : block.restartOffset ≤ offset) (lastKey : Bytes) :
    block.scan stop offset lastKey = .atEnd := by
  rw [scan, dif_neg h.not_gt]

theorem scan_undecodable {msg : String} (hlt : offset < block.restartOffset)
    (h : block.decodeEntry offset lastKey = .error msg) :
    block.scan stop offset lastKey = .undecodable msg := by
  rw [scan, dif_pos hlt]
  split
  · rename_i hdec
    rw [h] at hdec
    cases hdec
    rfl
  · rename_i hdec
    rw [h] at hdec
    cases hdec

theorem scan_ok (hlt : offset < block.restartOffset)
    (h : block.decodeEntry offset lastKey = .ok e) :
    block.scan stop offset lastKey =
      if stop e then .found offset e else block.scan stop e.next e.key := by
  rw [scan, dif_pos hlt]
  split
  · rename_i hdec
    rw [h] at hdec
    cases hdec
  · rename_i hdec
    rw [h] at hdec
    cases hdec
    rfl

/-- What a scan finds was decoded. -/
theorem decodeEntry_of_scan {found : ℕ} (h : block.scan stop offset lastKey = .found found e) :
    ∃ key, block.decodeEntry found key = .ok e := by
  fun_induction scan block stop offset lastKey with
  | case1 => cases h
  | case2 offset lastKey hlt e' hdec hstop =>
    cases h
    exact ⟨lastKey, hdec⟩
  | case3 offset lastKey hlt e' hdec hstop ih => exact ih h
  | case4 => cases h

theorem decodeEntry_of_seek {cmp : Compare} {target : Bytes} {found : ℕ}
    (h : block.seek cmp target = some (.found found e)) :
    ∃ key, block.decodeEntry found key = .ok e := by
  rw [seek] at h
  split_ifs at h
  · cases h
  split at h
  · cases h
  · cases h
  · exact decodeEntry_of_scan (Option.some.inj h)

/-- A bisection ends where it started or at a restart point that it has read. -/
theorem restart_le_of_bisect {cmp : Compare} {target : Bytes} {left right idx : ℕ}
    (h : block.bisect cmp target left right = .restart idx) :
    (idx = left ∨ block.restart idx ≤ block.restartOffset) ∧ idx ≤ max left right := by
  fun_induction bisect block cmp target left right with
  | case1 => cases h
  | case2 => cases h
  | case3 left right hlt hin key hkey hless ih =>
    have hmid := middle_bounds hlt
    obtain ⟨hidx, hle⟩ := ih h
    refine ⟨.inr ?_, by omega⟩
    rcases hidx with rfl | hidx
    · exact not_lt.mp hin
    · exact hidx
  | case4 left right hlt hin key hkey hless ih =>
    have hmid := middle_bounds hlt
    obtain ⟨hidx, hle⟩ := ih h
    exact ⟨hidx, by omega⟩
  | case5 left right hlt =>
    cases h
    exact ⟨.inl rfl, le_max_left _ _⟩

end Block

/-! ### The iterator over arbitrary bytes -/

namespace BlockIter

variable {cmp : Compare} {it it' : BlockIter cmp} {block : Block}

/-- The iterator is where a scan ended. -/
structure EndsAt (block : Block) (status : Result Unit) (it : BlockIter cmp) (r : ScanEnd) :
    Prop where
  block_eq : it.block = block
  found : ∀ {offset e}, r = .found offset e → it.valid = true ∧ it.status = status ∧
    it.currentOffset = offset ∧ it.nextEntryOffset = e.next ∧ it.key.deref = e.key ∧
    it.valueOffset = e.valueOffset ∧ it.valueLen = e.valueLen
  left : (∀ offset e, r ≠ .found offset e) → it.valid = false ∧
    it.currentOffset = block.restartOffset ∧ it.nextEntryOffset = block.restartOffset
  atEnd : r = .atEnd → it.status = status
  undecodable : ∀ {msg}, r = .undecodable msg → it.status = .error (.corruption ("Block: " ++ msg))

theorem endsAt_leave (h : it.block = block) : EndsAt block it.status it.leave .atEnd where
  block_eq := h
  found h := by cases h
  left _ := ⟨rfl, congrArg Block.restartOffset h, congrArg Block.restartOffset h⟩
  atEnd _ := rfl
  undecodable h := by cases h

theorem endsAt_setCorruption (h : it.block = block) (status : Result Unit) (msg : String) :
    EndsAt block status (it.setCorruption msg) (.undecodable msg) where
  block_eq := h
  found h := by cases h
  left _ := ⟨rfl, congrArg Block.restartOffset h, congrArg Block.restartOffset h⟩
  atEnd h := by cases h
  undecodable h := by cases h; rfl

/-- The slice of the entries is inside the block. -/
theorem entriesFrom_eq_some (hin : it.block.restartOffset ≤ it.block.bytes.length) {offset : ℕ}
    (hoff : offset ≤ it.block.restartOffset) :
    it.entriesFrom offset = some (it.block.entriesFrom offset) := by
  rw [entriesFrom, guard, if_pos ⟨hoff, hin⟩]
  rfl

/-- **What `parse_next_entry` does before the end of the entries**: an entry that is decoded is
read, without an access outside the block, and one that is not is an error. -/
theorem parseNextEntry_decodes (hin : it.block.restartOffset ≤ it.block.bytes.length)
    (hlt : it.nextEntryOffset < it.block.restartOffset) :
    (∀ msg, it.block.decodeEntry it.nextEntryOffset it.key.deref = .error msg →
      it.parseNextEntry = some (false, it.setCorruption msg)) ∧
    ∀ e, it.block.decodeEntry it.nextEntryOffset it.key.deref = .ok e →
      ∃ key, key.deref = e.key ∧ it.parseNextEntry = some (true, { it with
        currentOffset := it.nextEntryOffset
        key
        valueOffset := e.valueOffset
        valueLen := e.valueLen
        nextEntryOffset := e.next
        valid := true }) := by
  have hlen := @Block.length_entriesFrom it.block it.nextEntryOffset
  rw [Block.decodeEntry, parseNextEntry, if_neg hlt.not_ge, entriesFrom_eq_some hin hlt.le]
  simp only [some_bind]
  rcases hshared : getVarint32 (it.block.entriesFrom it.nextEntryOffset) with ⟨_ | shared, p₁⟩
  · exact ⟨fun msg h => by cases h; rfl, fun e h => by cases h⟩
  dsimp only
  rcases hunshared : getVarint32 p₁ with ⟨_ | unshared, p₂⟩
  · exact ⟨fun msg h => by cases h; rfl, fun e h => by cases h⟩
  dsimp only
  rcases hvalueLen : getVarint32 p₂ with ⟨_ | valueLen, p₃⟩
  · exact ⟨fun msg h => by cases h; rfl, fun e h => by cases h⟩
  dsimp only
  split_ifs with htruncated hpre
  · exact ⟨fun msg h => by cases h; rfl, fun e h => by cases h⟩
  · exact ⟨fun msg h => by cases h; rfl, fun e h => by cases h⟩
  · refine ⟨fun msg h => (by cases h), fun e h => ?_⟩
    cases h
    refine ⟨_, by rw [KeyBuf.deref_extendFromSlice, KeyBuf.deref_truncate], ?_⟩
    -- the raw slice of the key ends before the value, which is among the entries
    have h₁ := length_lt_of_getVarint32 hshared
    have h₂ := length_lt_of_getVarint32 hunshared
    have h₃ := length_lt_of_getVarint32 hvalueLen
    rw [guard, if_pos (by omega)]
    rfl

/-- Reads entries as long as they are not good enough: the loops of `seek_to_last`, `seek` and
`prev`. -/
def parseLoop (goOn : BlockIter cmp → Bool) : ℕ → BlockIter cmp → Option (BlockIter cmp)
  | 0, _ => none
  | rounds + 1, it => do
    let (parsed, it) ← it.parseNextEntry
    if parsed && goOn it then parseLoop goOn rounds it else some it

theorem parseUntil_eq (limit rounds : ℕ) (it : BlockIter cmp) :
    parseUntil limit rounds it = parseLoop (fun it => it.nextEntryOffset < limit) rounds it := by
  induction rounds generalizing it with
  | zero => rfl
  | succ rounds ih => simp only [parseUntil, parseLoop, ih]

theorem parseTo_eq (target : Bytes) (rounds : ℕ) (it : BlockIter cmp) :
    parseTo target rounds it = parseLoop (fun it => !(cmp it.key.deref target).isGE) rounds it := by
  induction rounds generalizing it with
  | zero => rfl
  | succ rounds ih => simp only [parseTo, parseLoop, ih]

/-- **The loops of the iterator are scans.** -/
theorem parseLoop_spec {goOn : BlockIter cmp → Bool} {stop : DecodedEntry → Bool}
    (hstop : ∀ (it : BlockIter cmp) e, it.nextEntryOffset = e.next → it.key.deref = e.key →
      goOn it = !stop e) {rounds : ℕ} (it : BlockIter cmp)
    (hin : it.block.restartOffset ≤ it.block.bytes.length)
    (hr : it.block.restartOffset - it.nextEntryOffset < rounds) :
    ∃ it', parseLoop goOn rounds it = some it' ∧ it'.restartIndex = it.restartIndex ∧
      EndsAt it.block it.status it' (it.block.scan stop it.nextEntryOffset it.key.deref) := by
  induction rounds generalizing it with
  | zero => exact absurd hr (Nat.not_lt_zero _)
  | succ rounds ih =>
    rw [parseLoop]
    rcases lt_or_ge it.nextEntryOffset it.block.restartOffset with hlt | hge
    · rcases hdec : it.block.decodeEntry it.nextEntryOffset it.key.deref with msg | e
      · rw [(parseNextEntry_decodes hin hlt).1 msg hdec, Block.scan_undecodable hlt hdec]
        exact ⟨_, rfl, rfl, endsAt_setCorruption rfl _ msg⟩
      · obtain ⟨key, hkey, hp⟩ := (parseNextEntry_decodes hin hlt).2 e hdec
        obtain ⟨hval, hnext, -, -⟩ := Block.bounds_of_decodeEntry hdec
        rw [hp, Block.scan_ok hlt hdec]
        simp only [some_bind]
        rw [hstop _ e rfl hkey, Bool.true_and]
        rcases hend : stop e with _ | _
        · obtain ⟨it', hloop, hindex, hends⟩ := ih { it with
            currentOffset := it.nextEntryOffset
            key
            valueOffset := e.valueOffset
            valueLen := e.valueLen
            nextEntryOffset := e.next
            valid := true } hin (by dsimp only; omega)
          dsimp only at hends
          rw [hkey] at hends
          exact ⟨it', hloop, hindex, hends⟩
        · refine ⟨_, rfl, rfl, ?_⟩
          exact
            { block_eq := rfl
              found := fun h => by cases h; exact ⟨rfl, rfl, rfl, rfl, hkey, rfl, rfl⟩
              left := fun h => absurd rfl (h _ _)
              atEnd := fun h => by cases h
              undecodable := fun h => by cases h }
    · have hp : it.parseNextEntry = some (false, it.leave) := if_pos hge
      rw [hp, Block.scan_atEnd hge]
      exact ⟨_, rfl, rfl, endsAt_leave rfl⟩

/-- Reading one entry is a scan that ends at once. -/
theorem parseNextEntry_endsAt (it : BlockIter cmp)
    (hin : it.block.restartOffset ≤ it.block.bytes.length) :
    ∃ parsed it', it.parseNextEntry = some (parsed, it') ∧ it'.restartIndex = it.restartIndex ∧
      EndsAt it.block it.status it'
        (it.block.scan (fun _ => true) it.nextEntryOffset it.key.deref) := by
  obtain ⟨it', hloop, hends⟩ := @parseLoop_spec cmp (fun _ => false) (fun _ => true)
    (fun _ _ _ _ => rfl) _ it hin (Nat.lt_succ_self _)
  rcases hp : it.parseNextEntry with _ | ⟨parsed, it''⟩
  · simp [parseLoop, hp] at hloop
  · simp only [parseLoop, hp, some_bind, Bool.and_false,
      Bool.false_eq_true, if_false, Option.some.injEq] at hloop
    exact ⟨parsed, it'', rfl, hloop ▸ hends⟩

section Accepted

variable (hacc : it.block.Accepted)
include hacc

/-- The entries are inside the block. -/
theorem restartOffset_le : it.block.restartOffset ≤ it.block.bytes.length := by
  rw [hacc]
  omega

/-- The restart points are inside the block. -/
theorem readRestart_of_accepted {idx : ℕ} (hidx : idx ≤ it.block.numRestarts) :
    it.readRestart idx = some (it.block.restart idx) := by
  have hin : it.block.restartOffset + idx * 4 + 4 ≤ it.block.bytes.length := by
    rw [hacc]
    omega
  rw [readRestart, guard, if_pos hin]
  rfl

theorem seekToRestartPoint_eq {idx : ℕ} (hidx : idx ≤ it.block.numRestarts) :
    it.seekToRestartPoint idx = some { it with
      key := it.key.clear
      restartIndex := idx
      nextEntryOffset := it.block.restart idx
      currentOffset := it.block.restart idx
      valid := false } := by
  rw [seekToRestartPoint, readRestart_of_accepted hacc hidx]
  rfl

/-- A scan from a restart point. -/
theorem parseLoop_restart {goOn : BlockIter cmp → Bool} {stop : DecodedEntry → Bool}
    (hstop : ∀ (it : BlockIter cmp) e, it.nextEntryOffset = e.next → it.key.deref = e.key →
      goOn it = !stop e) {idx : ℕ} (hidx : idx ≤ it.block.numRestarts) :
    ∃ it', (it.seekToRestartPoint idx >>= fun it => parseLoop goOn it.rounds it) = some it' ∧
      it'.restartIndex = idx ∧
      EndsAt it.block it.status it' (it.block.scan stop (it.block.restart idx) []) := by
  have hr : it.block.restartOffset - it.block.restart idx < it.rounds := by
    rw [rounds, hacc]
    omega
  obtain ⟨it', hloop, hindex, hends⟩ := parseLoop_spec hstop { it with
    key := it.key.clear
    restartIndex := idx
    nextEntryOffset := it.block.restart idx
    currentOffset := it.block.restart idx
    valid := false } (restartOffset_le hacc) hr
  dsimp only at hends
  rw [KeyBuf.deref_clear] at hends
  refine ⟨it', ?_, hindex, hends⟩
  rw [seekToRestartPoint_eq hacc hidx]
  exact hloop

/-- **The bisection of the iterator is the one over the bytes.** -/
theorem bisect_eq (target : Bytes) {rounds left right : ℕ} (hr : right - left < rounds)
    (hright : right ≤ it.block.numRestarts) :
    it.bisect target rounds left right = match it.block.bisect cmp target left right with
      | .outside => none
      | .undecodable msg => some (.error (it.setCorruption msg))
      | .restart idx => some (.ok idx) := by
  induction rounds generalizing left right with
  | zero => exact absurd hr (Nat.not_lt_zero _)
  | succ rounds ih =>
    rw [bisect, Block.bisect]
    by_cases hlt : left < right
    · rw [if_pos hlt, dif_pos hlt, ← Block.middle]
      obtain ⟨hleft, hmid⟩ := Block.middle_bounds hlt
      dsimp only
      rw [readRestart_of_accepted hacc (hmid.trans hright)]
      simp only [some_bind]
      split_ifs with hout
      · rw [entriesFrom, guard, if_neg fun hle => hout.not_ge hle.1]
        rfl
      · rw [entriesFrom_eq_some (restartOffset_le hacc) (not_lt.mp hout)]
        simp only [Block.restartKey, Option.pure_def, some_bind]
        rcases hunshared : getVarint32 (getVarint32 (it.block.entriesFrom
          (it.block.restart (Block.middle left right)))).2 with ⟨_ | unshared, p₂⟩
        · rfl
        · dsimp only
          by_cases hs : (getVarint32 p₂).2.length < unshared
          · rw [if_pos hs, if_pos hs]
          · rw [if_neg hs, if_neg hs]
            dsimp only
            split_ifs with hless
            · refine ih ?_ hright
              omega
            · refine ih ?_ ?_ <;> omega
    · rw [if_neg hlt, dif_neg hlt]

/-- **The search of the iterator is the one over the bytes.** Where the latter finds a restart point
behind the entries, the iterator panics. -/
theorem seek_endsAt (hstart : it.block.numRestarts = 0 → it.currentOffset = it.block.restartOffset ∧
      it.nextEntryOffset = it.block.restartOffset) (target : Bytes) :
    match it.block.seek cmp target with
    | none => it.seek target = none
    | some r => ∃ it', it.seek target = some it' ∧ EndsAt it.block it.status it' r ∧
        (it'.valid = true → it'.restartIndex < it.block.numRestarts) ∧
        it'.restartIndex ≤ max it.restartIndex it.block.numRestarts := by
  rw [Block.seek, seek]
  split_ifs with hzero
  · dsimp only
    refine ⟨_, rfl, ?_, (fun h => by cases h), le_max_left _ _⟩
    exact
      { block_eq := rfl
        found := fun h => by cases h
        left := fun _ => ⟨rfl, hstart hzero⟩
        atEnd := fun _ => rfl
        undecodable := fun h => by cases h }
  · have hr : it.block.numRestarts - 1 - 0 < it.rounds := by
      rw [rounds, hacc]
      omega
    rw [bisect_eq hacc target hr (Nat.sub_le _ _)]
    rcases hbisect : it.block.bisect cmp target 0 (it.block.numRestarts - 1) with idx | msg | _
    · have hidx := (Block.restart_le_of_bisect hbisect).2
      obtain ⟨it', hloop, hindex, hends⟩ := @parseLoop_restart cmp it hacc
        (fun it => !(cmp it.key.deref target).isGE) (fun e => (cmp e.key target).isGE)
        (fun it e _ hkey => by rw [hkey]) idx (by omega)
      refine ⟨it', ?_, hends, (fun _ => by omega), by omega⟩
      simpa only [some_bind, parseTo_eq] using hloop
    · exact ⟨_, rfl, endsAt_setCorruption rfl _ msg, (fun h => by cases h), le_max_left _ _⟩
    · rfl

end Accepted

end BlockIter

end PulsearcDb
