import PulsearcDb.Block.BlockIter

/-!
# The iterator of a block is a cursor

For a block that holds strictly sorted entries, `BlockIter` is a cursor over them
(`BlockIter.sound`). An iterator that is ready for an entry reads it (`parseNextEntry_spec`); the
loops read one entry after the other up to a place, and the calls start them at a restart point that
is not behind this place. The restart index may lag behind the current entry.
-/

namespace PulsearcDb

open Pieces Cursor List

namespace BlockIter

variable {cmp : Compare} {block : Block} {entries : List Pair}
  {shares restarts : List ℕ} {it it' : BlockIter cmp} {i j k n r : ℕ} {e : Pair}

/-! ### Reading an entry -/

/-- The iterator is before the entry with this index, with a key from which it can go on. -/
structure Ready (block : Block) (entries : List Pair) (shares : List ℕ)
    (it : BlockIter cmp) (i : ℕ) : Prop where
  block_eq : it.block = block
  status_eq : it.status = .ok ()
  next_eq : it.nextEntryOffset = offset (encodings shares entries) i
  le : i ≤ entries.length
  key : ∀ {n}, shares[i]? = some n →
    n ≤ it.key.deref.length ∧ it.key.deref.take n = (keyBefore entries i).take n

/-- The iterator has read the entry with this index. -/
structure Has (block : Block) (entries : List Pair) (shares : List ℕ)
    (it : BlockIter cmp) (i : ℕ) : Prop where
  block_eq : it.block = block
  status_eq : it.status = .ok ()
  valid_eq : it.valid = true
  current_eq : it.currentOffset = offset (encodings shares entries) i
  next_eq : it.nextEntryOffset = offset (encodings shares entries) (i + 1)
  entry : ∃ e, entries[i]? = some e ∧ it.key.deref = e.1 ∧ it.value = some e.2

theorem Has.lt (h : Has block entries shares it i) : i < entries.length := by
  obtain ⟨e, he, -⟩ := h.entry
  exact (List.getElem?_eq_some_iff.mp he).1

theorem Has.ready (h : Has block entries shares it i) (hcoded : Coded entries shares restarts) :
    Ready block entries shares it (i + 1) := by
  obtain ⟨e, he, hkey, -⟩ := h.entry
  refine ⟨h.block_eq, h.status_eq, h.next_eq, h.lt, fun hn => ?_⟩
  rw [hkey, ← keyBefore_succ he]
  exact ⟨hcoded.shared_le hn, rfl⟩

/-- An entry whose three lengths are in front of enough bytes. -/
theorem parseNextEntry_eq {shared unshared valueLen : ℕ} {rest : Bytes}
    (hbefore : it.nextEntryOffset < it.block.restartOffset)
    (hp : it.entriesFrom it.nextEntryOffset =
      some (putVarint32 shared ++ (putVarint32 unshared ++ (putVarint32 valueLen ++ rest))))
    (hs : shared < 2 ^ 32) (hu : unshared < 2 ^ 32) (hval : valueLen < 2 ^ 32)
    (hrest : unshared + valueLen ≤ rest.length) (hle : shared ≤ it.key.deref.length) {keyPos : ℕ}
    (hkeyPos : keyPos = it.nextEntryOffset + (putVarint32 shared ++ (putVarint32 unshared ++
      putVarint32 valueLen)).length) (hin : keyPos + unshared ≤ it.block.bytes.length) :
    it.parseNextEntry = some (true, { it with
      currentOffset := it.nextEntryOffset
      key := (it.key.truncate shared).extendFromSlice ((it.block.bytes.drop keyPos).take unshared)
      valueOffset := keyPos + unshared
      valueLen
      nextEntryOffset := keyPos + unshared + valueLen
      valid := true }) := by
  have hlen : it.nextEntryOffset + ((putVarint32 shared ++ (putVarint32 unshared ++
      (putVarint32 valueLen ++ rest))).length - rest.length) = keyPos := by
    rw [hkeyPos]
    simp only [length_append]
    omega
  rw [parseNextEntry, if_neg hbefore.not_ge, hp]
  simp only [some_bind, getVarint32_putVarint32 _ hs,
    getVarint32_putVarint32 _ hu, getVarint32_putVarint32 _ hval]
  rw [if_neg hrest.not_gt, if_neg hle.not_gt, hlen, guard, if_pos hin]
  rfl

section Held

variable (h : block.Holds entries shares restarts)
include h

theorem length_encodings : (encodings shares entries).length = entries.length := by
  simp [encodings, h.length_eq]

theorem offset_lt_restartOffset (hi : i < entries.length) :
    offset (encodings shares entries) i < block.restartOffset := by
  rw [h.restartOffset_eq, ← offset_length, length_encodings h]
  exact offset_lt encodings_ne_nil hi ((length_encodings h).symm ▸ hi)

/-- The bytes from an entry on. -/
theorem entriesFrom_eq (hblk : it.block = block) (hn : shares[i]? = some n)
    (he : entries[i]? = some e) :
    it.entriesFrom (offset (encodings shares entries) i) =
      some (BlockEntry.encode n e ++ ((encodings shares entries).drop (i + 1)).flatten) := by
  obtain ⟨tail, hb⟩ := h.bytes_eq
  have hread := drop_offset (getElem?_encodings hn he) []
  rw [append_nil, append_nil] at hread
  have hin : offset (encodings shares entries) i ≤ block.restartOffset ∧
      block.restartOffset ≤ block.bytes.length := by
    refine ⟨(offset_lt_restartOffset h (List.getElem?_eq_some_iff.mp he).1).le, ?_⟩
    rw [h.restartOffset_eq, hb, length_append]
    exact Nat.le_add_right _ _
  rw [entriesFrom, hblk, guard, if_pos hin, h.restartOffset_eq, hb, take_left, hread]
  rfl

/-- The header of an entry: its three lengths. -/
def header (n : ℕ) (e : Pair) : Bytes :=
  putVarint32 n ++ (putVarint32 (e.1.length - n) ++ putVarint32 e.2.length)

theorem encode_eq (hn : shares[i]? = some n) (he : entries[i]? = some e) :
    BlockEntry.encode n e = header n e ++ (e.1.drop n ++ e.2) := by
  obtain ⟨hs, hu, hval⟩ := h.fits hn he
  rw [BlockEntry.encode, Nat.mod_eq_of_lt hs, Nat.mod_eq_of_lt hu,
    Nat.mod_eq_of_lt hval, BlockEntry.encodeStreaming, header]
  simp only [append_assoc]

/-- The bytes of a block from an entry on. -/
theorem drop_bytes (hn : shares[i]? = some n) (he : entries[i]? = some e) :
    ∃ behind, block.bytes.drop (offset (encodings shares entries) i) =
      header n e ++ (e.1.drop n ++ (e.2 ++ behind)) := by
  obtain ⟨tail, hb⟩ := h.bytes_eq
  refine ⟨((encodings shares entries).drop (i + 1)).flatten ++ tail, ?_⟩
  rw [hb, drop_offset (getElem?_encodings hn he), encode_eq h hn he]
  simp only [append_assoc]

/-- The three lengths and what is behind them. -/
theorem entriesFrom_eq_varints (hblk : it.block = block) (hn : shares[i]? = some n)
    (he : entries[i]? = some e) :
    ∃ behind, it.entriesFrom (offset (encodings shares entries) i) =
      some (putVarint32 n ++ (putVarint32 (e.1.length - n) ++ (putVarint32 e.2.length ++
        (e.1.drop n ++ (e.2 ++ behind))))) := by
  refine ⟨((encodings shares entries).drop (i + 1)).flatten, ?_⟩
  rw [entriesFrom_eq h hblk hn he, encode_eq h hn he, header]
  simp only [append_assoc]

/-- **An entry is read.** -/
theorem parseNextEntry_spec (hready : Ready block entries shares it i) (he : entries[i]? = some e) :
    ∃ it', it.parseNextEntry = some (true, it') ∧ Has block entries shares it' i ∧
      it'.restartIndex = it.restartIndex := by
  obtain ⟨n, hn⟩ := h.exists_shared he
  obtain ⟨hi, -⟩ := List.getElem?_eq_some_iff.mp he
  obtain ⟨hle, htake⟩ := hready.key hn
  obtain ⟨hs, hu, hval⟩ := h.fits hn he
  obtain ⟨behind, hbehind⟩ := drop_bytes h hn he
  have hbefore : it.nextEntryOffset < it.block.restartOffset := by
    rw [hready.next_eq, hready.block_eq]
    exact offset_lt_restartOffset h hi
  obtain ⟨after, hp⟩ := entriesFrom_eq_varints h hready.block_eq hn he
  rw [← hready.next_eq] at hp hbehind
  have hkey : (it.block.bytes.drop (it.nextEntryOffset + (header n e).length)).take
      (e.1.length - n) = e.1.drop n := by
    rw [hready.block_eq, ← drop_drop, hbehind, drop_left, ← length_drop, take_left]
  have hvalueDrop : it.block.bytes.drop (it.nextEntryOffset + (header n e).length +
      (e.1.length - n)) = e.2 ++ behind := by
    rw [hready.block_eq, ← drop_drop, ← drop_drop, hbehind, drop_left, ← length_drop, drop_left]
  have hend : it.nextEntryOffset + (header n e).length + (e.1.length - n) + e.2.length =
      offset (encodings shares entries) (i + 1) := by
    rw [hready.next_eq, offset_succ (getElem?_encodings hn he), encode_eq h hn he]
    simp only [length_append, length_drop]
    omega
  have hin : it.nextEntryOffset + (header n e).length + (e.1.length - n) + e.2.length ≤
      it.block.bytes.length := by
    obtain ⟨tail, hb⟩ := h.bytes_eq
    rw [hend, hready.block_eq, hb, length_append]
    exact (offset_le _ _).trans (Nat.le_add_right _ _)
  have hparse := parseNextEntry_eq hbefore hp hs hu hval (by simp) hle rfl
    ((Nat.le_add_right _ _).trans hin)
  refine ⟨_, hparse, ⟨hready.block_eq, hready.status_eq, rfl, hready.next_eq, hend, e, he, ?_, ?_⟩,
    rfl⟩
  · change ((it.key.truncate n).extendFromSlice ((it.block.bytes.drop
      (it.nextEntryOffset + (header n e).length)).take (e.1.length - n))).deref = e.1
    rw [KeyBuf.deref_extendFromSlice, KeyBuf.deref_truncate, htake, ← h.take_eq hn he, hkey,
      take_append_drop]
  · change (guard (it.nextEntryOffset + (header n e).length + (e.1.length - n) + e.2.length ≤
      it.block.bytes.length) >>= fun _ => some ((it.block.bytes.drop (it.nextEntryOffset +
        (header n e).length + (e.1.length - n))).take e.2.length)) = some e.2
    rw [guard, if_pos hin, hvalueDrop, take_left]
    rfl

/-- Behind the last entry there is nothing to read. -/
theorem parseNextEntry_end (hready : Ready block entries shares it i) (he : entries[i]? = none) :
    it.parseNextEntry = some (false, it.leave) := by
  have hi : i = entries.length := le_antisymm hready.le (List.getElem?_eq_none_iff.mp he)
  rw [parseNextEntry, if_pos]
  rw [hready.next_eq, hready.block_eq, h.restartOffset_eq, ← offset_length, length_encodings h, hi]

/-! ### The loops -/

omit h in
theorem ready_of_clear {idx : ℕ} (hr : restarts[idx]? = some r)
    (hcoded : Coded entries shares restarts) (hblk : it.block = block)
    (hstat : it.status = .ok ())
    (hnext : it.nextEntryOffset = offset (encodings shares entries) r) :
    Ready block entries shares it r := by
  have hmem := mem_of_getElem? hr
  refine ⟨hblk, hstat, hnext, ?_, fun hn => ?_⟩
  · exact (hcoded.restart_lt r hmem).elim (fun hzero => hzero ▸ Nat.zero_le _) Nat.le_of_lt
  · rw [hcoded.shared_eq_zero hmem hn]
    exact ⟨Nat.zero_le _, rfl⟩

theorem readRestart_eq (hblk : it.block = block) (hr : restarts[j]? = some r) :
    it.readRestart j = some (offset (encodings shares entries) r) := by
  obtain ⟨hin, hread⟩ := h.restart_eq hr
  rw [readRestart, hblk, hread, guard, if_pos hin]
  rfl

/-- A restart point is a place to start from. -/
theorem seekToRestartPoint_spec (hblk : it.block = block) (hstat : it.status = .ok ())
    (hr : restarts[j]? = some r) :
    ∃ it', it.seekToRestartPoint j = some it' ∧ Ready block entries shares it' r ∧
      it'.restartIndex = j := by
  refine ⟨{ it with
    key := it.key.clear
    restartIndex := j
    nextEntryOffset := offset (encodings shares entries) r
    currentOffset := offset (encodings shares entries) r
    valid := false }, ?_, ready_of_clear hr h.toCoded hblk hstat rfl, rfl⟩
  rw [seekToRestartPoint, readRestart_eq h hblk hr]
  rfl

/-- **Reading on to an entry** whose successor is at the limit. -/
theorem parseUntil_spec {limit rounds : ℕ} (hready : Ready block entries shares it i) (hik : i ≤ k)
    (hk : k < entries.length) (hl : limit = offset (encodings shares entries) (k + 1))
    (hrounds : k - i < rounds) :
    ∃ it', parseUntil limit rounds it = some it' ∧ Has block entries shares it' k ∧
      it'.restartIndex = it.restartIndex := by
  induction rounds generalizing it i with
  | zero => omega
  | succ rounds ih =>
    obtain ⟨it₁, hparse, hhas, hindex⟩ :=
      parseNextEntry_spec h hready (getElem?_eq_getElem (hik.trans_lt hk))
    simp only [parseUntil, hparse, some_bind]
    rw [Bool.true_and, hhas.next_eq, hl]
    rcases hik.lt_or_eq with hlt | rfl
    · have hbefore : offset (encodings shares entries) (i + 1) <
          offset (encodings shares entries) (k + 1) :=
        offset_lt encodings_ne_nil (by omega) (by rw [length_encodings h]; omega)
      rw [if_pos (decide_eq_true hbefore)]
      obtain ⟨it', hloop, hhas', hindex'⟩ := ih (hhas.ready h.toCoded) hlt (by omega)
      exact ⟨it', hl ▸ hloop, hhas', hindex'.trans hindex⟩
    · rw [if_neg (by simp)]
      exact ⟨it₁, rfl, hhas, hindex⟩

/-- The entries from `i` to before `k` do not reach the target. -/
def NoneReach (cmp : Compare) (entries : List Pair) (target : Bytes)
    (i k : ℕ) : Prop :=
  ∀ m e, i ≤ m → m < k → entries[m]? = some e → (cmp target e.1).isLE = false

/-- **Reading on to the first entry that reaches the target.** -/
theorem parseTo_spec [Std.TransCmp cmp] (target : Bytes) {rounds : ℕ}
    (hready : Ready block entries shares it i) (hrounds : entries.length - i < rounds) :
    ∃ it', parseTo target rounds it = some it' ∧
      ((∃ k e, i ≤ k ∧ entries[k]? = some e ∧ (cmp target e.1).isLE = true ∧
          NoneReach cmp entries target i k ∧ Has block entries shares it' k ∧
          it'.restartIndex = it.restartIndex) ∨
        NoneReach cmp entries target i entries.length ∧ it'.block = block ∧ it'.status = .ok () ∧
          it'.valid = false) := by
  induction rounds generalizing it i with
  | zero => omega
  | succ rounds ih =>
    rcases he : entries[i]? with _ | e
    · refine ⟨it.leave, ?_, .inr ⟨fun m _ him hm _ => ?_, hready.block_eq, hready.status_eq, rfl⟩⟩
      · rw [parseTo, parseNextEntry_end h hready he]
        rfl
      · have := List.getElem?_eq_none_iff.mp he
        omega
    · obtain ⟨hi, -⟩ := List.getElem?_eq_some_iff.mp he
      obtain ⟨it₁, hparse, hhas, hindex⟩ := parseNextEntry_spec h hready he
      obtain ⟨e', he', hkey, -⟩ := hhas.entry
      obtain rfl : e = e' := Option.some.inj (he.symm.trans he')
      simp only [parseTo, hparse, some_bind]
      rw [Bool.true_and, hkey, Std.OrientedCmp.isGE_eq_isLE]
      rcases hreach : (cmp target e.1).isLE with _ | _
      · obtain ⟨it', hloop, hspec⟩ := ih (hhas.ready h.toCoded) (by omega)
        have hextend : ∀ {k}, NoneReach cmp entries target (i + 1) k →
            NoneReach cmp entries target i k := fun hnone m e' him hm hm' => by
          rcases him.lt_or_eq with hlt | rfl
          · exact hnone m e' hlt hm hm'
          · rwa [← Option.some.inj (he.symm.trans hm')]
        refine ⟨it', hloop, hspec.imp ?_ fun hnone => ⟨hextend hnone.1, hnone.2⟩⟩
        rintro ⟨k, e', hik, hk, hreach', hnone, hhas', hindex'⟩
        exact ⟨k, e', by omega, hk, hreach', hextend hnone, hhas', hindex'.trans hindex⟩
      · refine ⟨it₁, rfl, .inl ⟨i, e, le_rfl, he, hreach, fun m _ him hm _ => ?_, hhas, hindex⟩⟩
        omega

/-- Every restart point but the first is at an entry, which is written with its whole key. -/
theorem restart_entry (hj : j < restarts.length) (hpos : 0 < j) :
    ∃ r e, restarts[j]? = some r ∧ entries[r]? = some e ∧ shares[r]? = some 0 := by
  have hr := getElem?_eq_getElem hj
  have hmem := mem_of_getElem? hr
  have hfst : restarts[0]? = some 0 := head?_eq_getElem? ▸ h.head_eq
  have hlt : 0 < restarts[j] := by
    obtain ⟨hzero, heq⟩ := List.getElem?_eq_some_iff.mp hfst
    exact heq ▸ pairwise_iff_getElem.mp h.sorted 0 j hzero hj hpos
  have hlen := (h.restart_lt _ hmem).resolve_left hlt.ne'
  have he := getElem?_eq_getElem hlen
  obtain ⟨n, hn⟩ := h.exists_shared he
  exact ⟨_, _, hr, he, h.shared_eq_zero hmem hn ▸ hn⟩

/-- **The bisection finds a restart point before which no entry reaches the target.** -/
theorem bisect_spec [Std.TransCmp cmp] {target : Bytes} (hsort : Increasing cmp entries)
    (hblk : it.block = block) {rounds left right : ℕ} (hright : right < restarts.length)
    (hle : left ≤ right) (hrounds : right - left < rounds)
    (hleft : ∀ r, restarts[left]? = some r → NoneReach cmp entries target 0 r) :
    ∃ j r, it.bisect target rounds left right = some (.ok j) ∧ restarts[j]? = some r ∧
      NoneReach cmp entries target 0 r := by
  induction rounds generalizing left right with
  | zero => omega
  | succ rounds ih =>
    rw [bisect]
    split_ifs with hlt
    · generalize hmid : left + (right - left + 1) / 2 = mid
      have hmidlt : mid < restarts.length := by omega
      obtain ⟨r, e, hr, he, hn⟩ := restart_entry h hmidlt (by omega)
      obtain ⟨behind, hp⟩ := entriesFrom_eq_varints h hblk hn he
      obtain ⟨hs, hu, hval⟩ := h.fits hn he
      have hkey : (e.1.drop 0 ++ (e.2 ++ behind)).take (e.1.length - 0) = e.1 := take_left
      simp only [readRestart_eq h hblk hr, some_bind,
        Option.pure_def, hp, getVarint32_putVarint32 _ hs, getVarint32_putVarint32 _ hu,
        getVarint32_putVarint32 _ hval, hkey]
      rw [if_neg (by simp)]
      split_ifs with hbefore
      · refine ih hright (by omega) (by omega) fun r' hr' m e' _ hm he' => ?_
        rw [Option.some.inj (hr'.symm.trans hr)] at hm
        have hlt := rank_lt_of_lt (hsort.imp fun hlt => rank_lt_rank.mpr hlt) he' he hm
        have hbelow := rank_lt_rank.mpr (Ordering.isLT_iff_eq_lt.mp hbefore)
        rw [← Bool.not_eq_true, ← rank_le_rank]
        exact not_le.mpr (hlt.trans hbelow)
      · exact ih (by omega) (by omega) (by omega) hleft
    · have hr := getElem?_eq_getElem (hle.trans_lt hright)
      exact ⟨left, _, rfl, hr, hleft _ hr⟩

section

variable (hblk : it.block = block)
include hblk

/-- The restart index only moves to restart points that are not behind the current entry. -/
theorem advanceRestart_spec {rounds : ℕ} (hrounds : restarts.length - it.restartIndex < rounds) :
    ∃ idx, advanceRestart rounds it = some { it with restartIndex := idx } ∧
      (idx = it.restartIndex ∨ ∃ r, restarts[idx]? = some r ∧
        offset (encodings shares entries) r ≤ it.currentOffset) := by
  induction rounds generalizing it with
  | zero => omega
  | succ rounds ih =>
    rw [advanceRestart]
    split_ifs with hmore
    · rw [hblk, h.numRestarts_eq] at hmore
      have hr := getElem?_eq_getElem hmore
      simp only [readRestart_eq h hblk hr, some_bind]
      split_ifs with hle
      · obtain ⟨idx, hloop, hidx⟩ := @ih { it with restartIndex := it.restartIndex + 1 } hblk
          (by dsimp only; omega)
        refine ⟨idx, hloop, .inr (hidx.elim (fun heq => ?_) id)⟩
        exact ⟨_, heq ▸ hr, hle⟩
      · exact ⟨it.restartIndex, rfl, .inl rfl⟩
    · exact ⟨it.restartIndex, rfl, .inl rfl⟩

/-- The last restart point before an entry; the first entry has none. -/
theorem retreatRestart_spec (hi : i < entries.length) (hr : restarts[j]? = some r) :
    ∃ q, it.retreatRestart (offset (encodings shares entries) i) j = some q ∧
      (q = none ∧ i = 0 ∨ ∃ idx r, q = some idx ∧ restarts[idx]? = some r ∧ r < i) := by
  have hback : ∀ {r}, offset (encodings shares entries) r ≥ offset (encodings shares entries) i ↔
      i ≤ r := offset_le_iff encodings_ne_nil (length_encodings h ▸ hi.le)
  induction j generalizing r with
  | zero =>
    have hzero : r = 0 := Option.some.inj (hr.symm.trans (head?_eq_getElem? ▸ h.head_eq))
    simp only [retreatRestart, readRestart_eq h hblk hr, some_bind, hback]
    split_ifs with hle
    · exact ⟨none, rfl, .inl ⟨rfl, by omega⟩⟩
    · exact ⟨some 0, rfl, .inr ⟨0, r, rfl, hr, by omega⟩⟩
  | succ j ih =>
    simp only [retreatRestart, readRestart_eq h hblk hr, some_bind, hback]
    split_ifs with hle
    · obtain ⟨hj, -⟩ := List.getElem?_eq_some_iff.mp hr
      exact ih (getElem?_eq_getElem (Nat.lt_of_succ_lt hj))
    · exact ⟨some (j + 1), rfl, .inr ⟨j + 1, r, rfl, hr, by omega⟩⟩

/-! ### The calls -/

theorem entries_lt_rounds : entries.length < it.rounds := by
  obtain ⟨tail, hb⟩ := h.bytes_eq
  have hle : (encodings shares entries).length ≤ (encodings shares entries).flatten.length :=
    length_le_length_flatten encodings_ne_nil
  rw [rounds, hblk, hb, length_append]
  rw [length_encodings h] at hle
  omega

omit hblk in
theorem restarts_pos : 0 < restarts.length := by
  have hhead := h.head_eq
  rcases restarts with _ | ⟨r, restarts⟩
  · cases hhead
  · exact Nat.succ_pos _

theorem restarts_lt_rounds : restarts.length < it.rounds := by
  have hpos := restarts_pos h
  have hlast : restarts.length - 1 < restarts.length := by omega
  have hin := (h.restart_eq (getElem?_eq_getElem hlast)).1
  rw [rounds, hblk]
  omega

/-- The states of an iterator. The restart index is only used when the iterator is at an entry. -/
def At (block : Block) (entries : List Pair) (shares restarts : List ℕ)
    (it : BlockIter cmp) : Option ℕ → Prop
  | none => it.block = block ∧ it.status = .ok () ∧ it.valid = false
  | some i => Has block entries shares it i ∧ ∃ r, restarts[it.restartIndex]? = some r ∧ r ≤ i

omit hblk in
omit h in
theorem At.block_eq {p : Option ℕ} (hat : At block entries shares restarts it p) :
    it.block = block := by
  cases p with
  | none => exact hat.1
  | some i => exact hat.1.block_eq

omit hblk in
omit h in
theorem At.status_eq {p : Option ℕ} (hat : At block entries shares restarts it p) :
    it.status = .ok () := by
  cases p with
  | none => exact hat.2.1
  | some i => exact hat.1.status_eq

theorem numRestarts_ne_zero : it.block.numRestarts ≠ 0 := by
  rw [hblk, h.numRestarts_eq]
  exact (restarts_pos h).ne'

theorem seekToFirst_spec (hstat : it.status = .ok ()) :
    ∃ it', it.seekToFirst = some it' ∧
      At block entries shares restarts it' (if 0 < entries.length then some 0 else none) := by
  have hzero : restarts[0]? = some 0 := head?_eq_getElem? ▸ h.head_eq
  obtain ⟨it₁, hseek, hready, hindex⟩ := seekToRestartPoint_spec h hblk hstat hzero
  rw [seekToFirst, if_neg (numRestarts_ne_zero h hblk), hseek]
  simp only [some_bind]
  split_ifs with hpos
  · obtain ⟨it₂, hparse, hhas, hindex₂⟩ := parseNextEntry_spec h hready (getElem?_eq_getElem hpos)
    rw [hparse]
    exact ⟨it₂, rfl, hhas, 0, by rw [hindex₂, hindex, hzero], le_rfl⟩
  · rw [parseNextEntry_end h hready (getElem?_eq_none (not_lt.mp hpos))]
    exact ⟨it₁.leave, rfl, hready.block_eq, hready.status_eq, rfl⟩

theorem seekToLast_spec (hstat : it.status = .ok ()) :
    ∃ it', it.seekToLast = some it' ∧ At block entries shares restarts it'
      (if 0 < entries.length then some (entries.length - 1) else none) := by
  have hpos := restarts_pos h
  have hlast : restarts.length - 1 < restarts.length := by omega
  have hr := getElem?_eq_getElem hlast
  obtain ⟨it₁, hseek, hready, hindex⟩ := seekToRestartPoint_spec h hblk hstat hr
  have hstart : it.seekToLast = parseUntil it₁.block.restartOffset it₁.rounds it₁ := by
    rw [seekToLast, if_neg (numRestarts_ne_zero h hblk), hblk, h.numRestarts_eq, hseek]
    rfl
  rw [hstart]
  split_ifs with hents
  · have hle : restarts[restarts.length - 1] ≤ entries.length - 1 := by
      have := h.restart_lt _ (mem_of_getElem? hr)
      omega
    have hl : it₁.block.restartOffset =
        offset (encodings shares entries) (entries.length - 1 + 1) := by
      rw [Nat.sub_add_cancel hents, ← length_encodings h, offset_length, hready.block_eq,
        h.restartOffset_eq]
    have hrounds := entries_lt_rounds h hready.block_eq
    obtain ⟨it₂, hloop, hhas, hindex₂⟩ :=
      parseUntil_spec h hready hle (by omega) hl (by omega : _ < it₁.rounds)
    exact ⟨it₂, hloop, hhas, _, by rw [hindex₂, hindex, hr], hle⟩
  · refine ⟨it₁.leave, ?_, hready.block_eq, hready.status_eq, rfl⟩
    rw [rounds, parseUntil, parseNextEntry_end h hready (getElem?_eq_none (by omega))]
    rfl

end

theorem seek_spec [Std.TransCmp cmp] (hsort : Increasing cmp entries)
    (hblk : it.block = block) (hstat : it.status = .ok ()) (target : Bytes) :
    ∃ it', it.seek target = some it' ∧ At block entries shares restarts it'
      (entries.findIdx? fun e => (cmp target e.1).isLE) := by
  have hpos := restarts_pos h
  have hres := restarts_lt_rounds h hblk
  have hzero : restarts[0]? = some 0 := head?_eq_getElem? ▸ h.head_eq
  obtain ⟨j, r, hbisect, hr, hbefore⟩ : ∃ j r, it.bisect target it.rounds 0 (restarts.length - 1) =
      some (.ok j) ∧ restarts[j]? = some r ∧ NoneReach cmp entries target 0 r := by
    refine bisect_spec h hsort hblk (by omega) (Nat.zero_le _) (by omega) fun r hr => ?_
    rw [Option.some.inj (hr.symm.trans hzero)]
    exact fun m e _ hm _ => absurd hm (Nat.not_lt_zero m)
  obtain ⟨it₁, hseek, hready, hindex⟩ := seekToRestartPoint_spec h hblk hstat hr
  have hents := entries_lt_rounds h hready.block_eq
  obtain ⟨it', hloop, hspec⟩ := parseTo_spec h target hready (by omega : _ < it₁.rounds)
  have hstart : it.seek target = some it' := by
    rw [seek, if_neg (numRestarts_ne_zero h hblk), hblk, h.numRestarts_eq, hbisect]
    simpa [hseek] using hloop
  refine ⟨it', hstart, ?_⟩
  have hall : ∀ {k}, NoneReach cmp entries target r k → NoneReach cmp entries target 0 k :=
    fun hnone m e _ hm he => (lt_or_ge m r).elim (fun hlt => hbefore m e (Nat.zero_le m) hlt he)
      fun hle => hnone m e hle hm he
  rcases hspec with ⟨k, e, hrk, hk, hreach, hnone, hhas, hindex'⟩ | ⟨hnone, hend⟩
  · have hfind : entries.findIdx? (fun e => (cmp target e.1).isLE) = some k := by
      obtain ⟨hlt, rfl⟩ := List.getElem?_eq_some_iff.mp hk
      refine findIdx?_eq_some_iff_getElem.mpr ⟨hlt, hreach, fun m hm => ?_⟩
      rw [hall hnone m _ (Nat.zero_le m) hm (getElem?_eq_getElem (hm.trans hlt))]
      exact Bool.false_ne_true
    rw [hfind]
    exact ⟨hhas, r, by rw [hindex', hindex, hr], hrk⟩
  · have hfind : entries.findIdx? (fun e => (cmp target e.1).isLE) = none := by
      refine findIdx?_eq_none_iff.mpr fun e he => ?_
      obtain ⟨m, hm⟩ := mem_iff_getElem?.mp he
      exact hall hnone m e (Nat.zero_le m) (List.getElem?_eq_some_iff.mp hm).1 hm
    rw [hfind]
    exact hend

theorem next_spec (hat : At block entries shares restarts it (some i)) :
    ∃ it', it.next = some it' ∧ At block entries shares restarts it'
      (if i + 1 < entries.length then some (i + 1) else none) := by
  obtain ⟨hhas, r, hr, hri⟩ := hat
  have hready := hhas.ready h.toCoded
  rw [next]
  split_ifs with hmore
  · obtain ⟨it₁, hparse, hhas₁, hindex⟩ := parseNextEntry_spec h hready (getElem?_eq_getElem hmore)
    have hlt := restarts_lt_rounds h hhas₁.block_eq
    obtain ⟨idx, hloop, hidx⟩ := advanceRestart_spec h hhas₁.block_eq (by omega : _ < it₁.rounds)
    simp only [hparse, some_bind]
    refine ⟨_, hloop,
      ⟨hhas₁.block_eq, hhas₁.status_eq, hhas₁.valid_eq, hhas₁.current_eq, hhas₁.next_eq,
      hhas₁.entry⟩, ?_⟩
    rcases hidx with rfl | ⟨r', hr', hle⟩
    · exact ⟨r, by rw [hindex, hr], by omega⟩
    · rw [hhas₁.current_eq, offset_le_iff encodings_ne_nil] at hle
      · exact ⟨r', hr', hle⟩
      · have := h.restart_lt r' (mem_of_getElem? hr')
        rw [length_encodings h]
        omega
  · rw [parseNextEntry_end h hready (getElem?_eq_none (not_lt.mp hmore))]
    have hleave : it.leave.block = block := hhas.block_eq
    have hlt := restarts_lt_rounds h hleave
    obtain ⟨idx, hloop, -⟩ := advanceRestart_spec h hleave (by omega : _ < it.leave.rounds)
    exact ⟨_, hloop, hhas.block_eq, hhas.status_eq, rfl⟩

theorem prev_spec (hat : At block entries shares restarts it (some i)) :
    ∃ it', it.prev = some it' ∧ At block entries shares restarts it'
      (if 0 < i then some (i - 1) else none) := by
  obtain ⟨hhas, r, hr, -⟩ := hat
  obtain ⟨q, hretreat, hq⟩ := retreatRestart_spec h hhas.block_eq hhas.lt hr
  rcases hq with ⟨rfl, rfl⟩ | ⟨idx, r', rfl, hr', hlt⟩
  · refine ⟨{ it.leave with restartIndex := 0 }, ?_, hhas.block_eq, hhas.status_eq, rfl⟩
    rw [prev, hhas.current_eq, hretreat]
    rfl
  · obtain ⟨it₁, hseek, hready, hindex⟩ :=
      seekToRestartPoint_spec h hhas.block_eq hhas.status_eq hr'
    have hents := entries_lt_rounds h hready.block_eq
    have hi := hhas.lt
    have hl : offset (encodings shares entries) i =
        offset (encodings shares entries) (i - 1 + 1) := by rw [Nat.sub_add_cancel (by omega)]
    obtain ⟨it₂, hloop, hhas₂, hindex₂⟩ :=
      parseUntil_spec h hready (by omega) (by omega) hl (by omega : _ < it₁.rounds)
    refine ⟨it₂, ?_, ?_⟩
    · rw [prev, hhas.current_eq, hretreat]
      simpa [hseek] using hloop
    · rw [if_pos (by omega)]
      exact ⟨hhas₂, r', by rw [hindex₂, hindex, hr'], by omega⟩

/-- **The iterator of a block is a cursor over its entries.** -/
theorem sound [Std.TransCmp cmp] (hsort : Increasing cmp entries) :
    DbIterator.Sound cmp entries ({ block } : BlockIter cmp) := by
  refine lawful_of_simulates (At block entries shares restarts) ?_ ?_ ⟨rfl, rfl, rfl⟩
  · intro it p hat
    cases p with
    | none => exact ⟨hat.2.2, hat.2.1⟩
    | some i =>
      obtain ⟨e, he, hkey, hval⟩ := hat.1.entry
      rw [entryAt, Option.bind_some, he]
      exact ⟨⟨hat.1.valid_eq, congrArg some hkey, hval⟩, hat.1.status_eq⟩
  · intro it p call hat _ hallowed
    cases call with
    | seekToFirst => exact seekToFirst_spec h hat.block_eq hat.status_eq
    | seekToLast => exact seekToLast_spec h hat.block_eq hat.status_eq
    | seek target => exact seek_spec h hsort hat.block_eq hat.status_eq target
    | next =>
      cases p with
      | none => cases hallowed
      | some i => exact next_spec h hat
    | prev =>
      cases p with
      | none => cases hallowed
      | some i => exact prev_spec h hat

end Held

/-- **A block that was written is a cursor over its entries**, of which it has no more
than bytes. -/
theorem exists_sound [Std.TransCmp cmp] {interval : ℕ} (hint : 1 ≤ interval) {entries : List Pair}
    (hsize : (blockBytes interval entries).length < 2 ^ 32) (hsort : Increasing cmp entries) :
    ∃ block, Block.new (blockBytes interval entries) = .ok block ∧
      entries.length ≤ block.bytes.length ∧
      DbIterator.Sound cmp entries ({ block } : BlockIter cmp) := by
  obtain ⟨block, shares, restarts, hnew, h⟩ := exists_holds hint hsize
  refine ⟨block, hnew, ?_, sound h hsort⟩
  obtain ⟨tail, hb⟩ := h.bytes_eq
  have hlen := length_le_length_flatten (@encodings_ne_nil shares entries)
  rw [encodings, length_zipWith, h.length_eq, min_self] at hlen
  rw [hb, length_append]
  exact hlen.trans (Nat.le_add_right _ _)

/-- The assertions of `add` hold for sorted entries. -/
theorem foldlM_add {interval : ℕ} (hint : 1 ≤ interval) [Std.TransCmp cmp]
    {entries : List Pair} (hsort : Increasing cmp entries) :
    entries.foldlM (fun b e => BlockBuilder.add cmp b e.1 e.2)
      { blockRestartInterval := interval } =
      some (BlockBuilder.ofEntries interval entries) := by
  induction entries using List.reverseRecOn with
  | nil => rfl
  | append_singleton entries e ih =>
    rw [foldlM_append, ih (pairwise_append.mp hsort).1]
    simpa using BlockBuilder.add_ofEntries hint (BlockBuilder.eq_nil_or_gt hsort)

/-- **A block is a sorted map with a bidirectional cursor.** -/
theorem lawful_finish {interval : ℕ} (hint : 1 ≤ interval) [Std.TransCmp cmp]
    {entries : List Pair} (hsort : Increasing cmp entries) :
    ∃ b : BlockBuilder, entries.foldlM (fun b e => BlockBuilder.add cmp b e.1 e.2)
        { blockRestartInterval := interval } = some b ∧
      (b.finish.buffer.length < 2 ^ 32 → ∃ block, Block.new b.finish.buffer = .ok block ∧
        DbIterator.Lawful cmp entries ({ block } : BlockIter cmp)) := by
  refine ⟨_, foldlM_add hint hsort, fun hsize => ?_⟩
  obtain ⟨block, hnew, -, hsound⟩ := @exists_sound cmp _ interval hint entries hsize hsort
  exact ⟨block, hnew, hsound.lawful⟩

/-- A key below the limit of the inline buffer, one at it and one above it, in one run of shared
prefixes. -/
def inlineLimitEntries : List Pair :=
  [([7], [1]), (List.replicate keyInlineCap 7, []), (List.replicate (keyInlineCap + 1) 7, [2])]

theorem lawful_inlineLimitEntries : ∃ block,
    Block.new (blockBytes 16 inlineLimitEntries) = .ok block ∧
    DbIterator.Lawful BytewiseComparator.compare inlineLimitEntries
      ({ block } : BlockIter BytewiseComparator.compare) := by
  have hsort : Increasing BytewiseComparator.compare inlineLimitEntries := by decide +kernel
  obtain ⟨b, hadd, hlawful⟩ := lawful_finish (by decide : 1 ≤ 16) hsort
  obtain rfl := Option.some.inj ((foldlM_add (by decide) hsort).symm.trans hadd)
  exact hlawful (by decide +kernel)

end BlockIter

end PulsearcDb
