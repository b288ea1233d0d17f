import PulsearcDb.Format
import Mathlib.Data.List.Induction

/-!
# Blocks

A block (`block/block.rs`) is a run of entries, each without the prefix that its key shares with the
key before, followed by the offsets of the *restart points*, entries that are written with their
whole key, and their number.

`BlockBuilder.add` is `push` behind its assertions. The entries of a builder are described by two
lists next to them (`Written`): how many bytes each entry shares, and which entries are restart
points. `Block.new` accepts what `finish` has written (`exists_holds`), and readers only use what
`Holds` says about the bytes.
-/

namespace PulsearcDb

open Pieces List

/-! ### Shared prefixes -/

theorem diffIndex_le_length (a b : Bytes) : diffIndex a b ≤ a.length := by
  fun_induction diffIndex a b with
  | case1 l b m ih => simpa using ih
  | case2 => exact Nat.zero_le _
  | case3 => exact Nat.zero_le _

theorem take_diffIndex (a b : Bytes) : a.take (diffIndex a b) = b.take (diffIndex a b) := by
  fun_induction diffIndex a b with
  | case1 l b m ih => simpa using ih
  | case2 => rfl
  | case3 => rfl

/-! ### Entries -/

/-- `BlockEntry::encode_streaming`. -/
def BlockEntry.encodeStreaming (shared unshared valueLen : ℕ) (keyDelta value : Bytes) : Bytes :=
  putVarint32 shared ++ (putVarint32 unshared ++ (putVarint32 valueLen ++ (keyDelta ++ value)))

/-- An entry that shares the first bytes of its key with the entry before. -/
def BlockEntry.encode (shared : ℕ) (e : Pair) : Bytes :=
  encodeStreaming (shared % 2 ^ 32) ((e.1.length - shared) % 2 ^ 32) (e.2.length % 2 ^ 32)
    (e.1.drop shared) e.2

theorem BlockEntry.encode_ne_nil (shared : ℕ) (e : Pair) : encode shared e ≠ [] := by
  simp [encode, encodeStreaming, putVarint32, putVarint64, varintBytes_ne_nil]

/-! ### Blocks -/

/-- `struct Block`. -/
structure Block where
  bytes : Bytes
  restartOffset : ℕ
  numRestarts : ℕ

/-- `Block::new` only looks at the restart count. -/
def Block.new (bytes : Bytes) : Result Block :=
  if bytes.length < 4 then .error (.corruption "Block: too small for restart count")
  else
    let numRestarts := decodeFixed32 (bytes.drop (bytes.length - 4))
    if numRestarts > (bytes.length - 4) / 4 then .error (.corruption "Block: bad restart count")
    else .ok { bytes, restartOffset := bytes.length - 4 - numRestarts * 4, numRestarts }

/-- `struct BlockBuilder`. -/
structure BlockBuilder where
  buffer : Bytes := []
  restarts : List ℕ := [0]
  counter : ℕ := 0
  finished : Bool := false
  lastKey : Bytes := []
  blockRestartInterval : ℕ

namespace BlockBuilder

/-- An empty builder with the same interval. -/
def reset (b : BlockBuilder) : BlockBuilder := { blockRestartInterval := b.blockRestartInterval }

/-- The length of the block if it ended here. -/
def currentSizeEstimate (b : BlockBuilder) : ℕ := b.buffer.length + b.restarts.length * 4 + 4

/-- The number of bytes that a key shares with the last one; none at a restart point. -/
def shared (b : BlockBuilder) (key : Bytes) : ℕ :=
  if b.counter < b.blockRestartInterval then diffIndex b.lastKey key else 0

/-- `add` without its assertions. -/
def push (b : BlockBuilder) (e : Pair) : BlockBuilder :=
  { b with
    buffer := b.buffer ++ BlockEntry.encode (b.shared e.1) e
    restarts :=
      if b.counter < b.blockRestartInterval then b.restarts
      else b.restarts ++ [b.buffer.length % 2 ^ 32]
    counter := (if b.counter < b.blockRestartInterval then b.counter else 0) + 1
    lastKey := b.lastKey.take (b.shared e.1) ++ e.1.drop (b.shared e.1) }

/-- An assertion that fails is `none`. -/
def add (cmp : Compare) (b : BlockBuilder) (key value : Bytes) :
    Option BlockBuilder := do
  guard (b.finished = false)
  guard (b.counter ≤ b.blockRestartInterval)
  guard (b.buffer = [] ∨ cmp key b.lastKey = .gt)
  return b.push (key, value)

/-- The entries, the restart points and their number. -/
def finish (b : BlockBuilder) : BlockBuilder :=
  { b with
    buffer := b.buffer ++
      (b.restarts.flatMap putFixed32 ++ putFixed32 (b.restarts.length % 2 ^ 32))
    finished := true }

/-- The builder of a block with these entries. -/
def ofEntries (interval : ℕ) (entries : List Pair) : BlockBuilder :=
  entries.foldl push { blockRestartInterval := interval }

end BlockBuilder

/-- The bytes of a block with these entries. -/
def blockBytes (interval : ℕ) (entries : List Pair) : Bytes :=
  (BlockBuilder.ofEntries interval entries).finish.buffer

/-! ### The entries of a builder -/

/-- The entries as they are written. -/
def encodings (shares : List ℕ) (entries : List Pair) : List Bytes :=
  List.zipWith BlockEntry.encode shares entries

theorem encodings_ne_nil {shares : List ℕ} {entries : List Pair} :
    ∀ x ∈ encodings shares entries, x ≠ [] := by
  intro x hx
  obtain ⟨i, hi⟩ := mem_iff_getElem?.mp hx
  rw [encodings, getElem?_zipWith] at hi
  split at hi
  · exact Option.some.inj hi ▸ BlockEntry.encode_ne_nil _ _
  · cases hi

/-- The key before an entry. -/
def keyBefore (entries : List Pair) (i : ℕ) : Bytes :=
  ((entries.take i).getLast?.map Prod.fst).getD []

/-- The shared prefixes and the restart points of a list of entries fit together. -/
structure Coded (entries : List Pair) (shares restarts : List ℕ) : Prop where
  length_eq : shares.length = entries.length
  shared_le : ∀ {i n}, shares[i]? = some n → n ≤ (keyBefore entries i).length
  take_eq : ∀ {i n e}, shares[i]? = some n → entries[i]? = some e →
    e.1.take n = (keyBefore entries i).take n
  head_eq : restarts.head? = some 0
  restart_lt : ∀ r ∈ restarts, r = 0 ∨ r < entries.length
  shared_eq_zero : ∀ {r n}, r ∈ restarts → shares[r]? = some n → n = 0
  sorted : restarts.Pairwise (· < ·)

namespace BlockBuilder

variable {interval : ℕ} {entries : List Pair} {shares restarts : List ℕ} {b : BlockBuilder}

/-- What a builder has written. -/
structure Written (interval : ℕ) (entries : List Pair) (shares restarts : List ℕ)
    (b : BlockBuilder) : Prop extends Coded entries shares restarts where
  buffer_eq : b.buffer = (encodings shares entries).flatten
  lastKey_eq : b.lastKey = keyBefore entries entries.length
  restarts_eq : b.restarts = restarts.map fun r => offset (encodings shares entries) r % 2 ^ 32
  interval_eq : b.blockRestartInterval = interval
  unfinished : b.finished = false
  counter_le : b.counter ≤ interval
  ne_nil : b.counter = interval → entries ≠ []

theorem written_new (hint : 1 ≤ interval) :
    Written interval [] [] [0] { blockRestartInterval := interval } where
  length_eq := rfl
  shared_le h := by simp at h
  take_eq h := by simp at h
  head_eq := rfl
  restart_lt r hr := .inl (mem_singleton.mp hr)
  shared_eq_zero _ h := by simp at h
  sorted := pairwise_singleton _ _
  buffer_eq := rfl
  lastKey_eq := rfl
  restarts_eq := rfl
  interval_eq := rfl
  unfinished := rfl
  counter_le := Nat.zero_le interval
  ne_nil h := by
    have h : 0 = interval := h
    omega

section Push

variable (h : Written interval entries shares restarts b) (e : Pair)
include h

theorem Written.length_encodings : (encodings shares entries).length = entries.length := by
  simp [encodings, h.length_eq]

/-- What an entry shares is a common prefix of its key and the key before. -/
theorem Written.shared_spec :
    b.shared e.1 ≤ (keyBefore entries entries.length).length ∧
      e.1.take (b.shared e.1) = (keyBefore entries entries.length).take (b.shared e.1) := by
  rw [← h.lastKey_eq, shared]
  split_ifs
  · exact ⟨diffIndex_le_length _ _, (take_diffIndex _ _).symm⟩
  · exact ⟨Nat.zero_le _, rfl⟩

theorem Written.push_lastKey : (b.push e).lastKey = e.1 := by
  change b.lastKey.take (b.shared e.1) ++ e.1.drop (b.shared e.1) = e.1
  rw [h.lastKey_eq, ← (h.shared_spec e).2, take_append_drop]

/-- An entry is the new one or an old one. -/
theorem Written.getElem?_shares_push {i n : ℕ} (hi : (shares ++ [b.shared e.1])[i]? = some n) :
    i = entries.length ∧ n = b.shared e.1 ∨ i < entries.length ∧ shares[i]? = some n := by
  obtain ⟨hlt, -⟩ := List.getElem?_eq_some_iff.mp hi
  rw [length_append, length_singleton, h.length_eq] at hlt
  rcases (Nat.lt_succ_iff.mp hlt).lt_or_eq with hold | rfl
  · rw [getElem?_append_left (h.length_eq ▸ hold)] at hi
    exact .inr ⟨hold, hi⟩
  · rw [← h.length_eq, getElem?_concat_length] at hi
    exact .inl ⟨rfl, (Option.some.inj hi).symm⟩

/-- A restart point is set for an entry that shares nothing and is not the first one. -/
theorem Written.shared_of_restart (hc : ¬ b.counter < b.blockRestartInterval) :
    b.shared e.1 = 0 ∧ 0 < entries.length := by
  have hcnt : b.counter = interval := by
    have := h.counter_le
    have := h.interval_eq
    omega
  exact ⟨if_neg hc, length_pos_iff.mpr (h.ne_nil hcnt)⟩

theorem Written.mem_restarts_push {r : ℕ}
    (hr : r ∈ if b.counter < b.blockRestartInterval then restarts
      else restarts ++ [entries.length]) :
    r ∈ restarts ∨ r = entries.length ∧ b.shared e.1 = 0 := by
  split_ifs at hr with hc
  · exact .inl hr
  · rw [mem_append, mem_singleton] at hr
    exact hr.imp_right fun hr => ⟨hr, (h.shared_of_restart e hc).1⟩

theorem Written.coded_push :
    Coded (entries ++ [e]) (shares ++ [b.shared e.1])
      (if b.counter < b.blockRestartInterval then restarts else restarts ++ [entries.length]) := by
  obtain ⟨hle, htake⟩ := h.shared_spec e
  have hbefore : ∀ {i}, i ≤ entries.length →
      keyBefore (entries ++ [e]) i = keyBefore entries i := by
    intro i hi
    rw [keyBefore, keyBefore, take_append_of_le_length hi]
  refine ⟨by simp [h.length_eq], ?_, ?_, ?_, ?_, ?_, ?_⟩
  · intro i n hi
    rcases h.getElem?_shares_push e hi with ⟨rfl, rfl⟩ | ⟨hlt, hi⟩
    · rwa [hbefore le_rfl]
    · rw [hbefore hlt.le]
      exact h.shared_le hi
  · intro i n e' hi he
    rcases h.getElem?_shares_push e hi with ⟨rfl, rfl⟩ | ⟨hlt, hi⟩
    · rw [getElem?_concat_length] at he
      rw [hbefore le_rfl, ← Option.some.inj he]
      exact htake
    · rw [getElem?_append_left hlt] at he
      rw [hbefore hlt.le]
      exact h.take_eq hi he
  · split_ifs
    · exact h.head_eq
    · rw [head?_append, h.head_eq]
      rfl
  · intro r hr
    rw [length_append, length_singleton]
    rcases h.mem_restarts_push e hr with hr | ⟨rfl, -⟩
    · exact (h.restart_lt r hr).imp_right Nat.lt_succ_of_lt
    · exact .inr (Nat.lt_succ_self _)
  · intro r n hr hi
    rcases h.getElem?_shares_push e hi with ⟨rfl, rfl⟩ | ⟨hlt, hi⟩
    · rcases h.mem_restarts_push e hr with hr | ⟨-, hzero⟩
      · -- an old restart point is at the new place only in an empty block
        have hempty : entries = [] := by
          rcases h.restart_lt _ hr with hzero | hlt
          · exact length_eq_zero_iff.mp hzero
          · exact absurd hlt (lt_irrefl _)
        subst hempty
        exact Nat.le_zero.mp hle
      · exact hzero
    · rcases h.mem_restarts_push e hr with hr | ⟨rfl, -⟩
      · exact h.shared_eq_zero hr hi
      · exact absurd hlt (lt_irrefl _)
  · split_ifs with hc
    · exact h.sorted
    · refine pairwise_append.mpr ⟨h.sorted, pairwise_singleton _ _, fun r hr n hn => ?_⟩
      rw [mem_singleton.mp hn]
      rcases h.restart_lt r hr with rfl | hlt
      · exact (h.shared_of_restart e hc).2
      · exact hlt

theorem Written.push (hint : 1 ≤ interval) :
    Written interval (entries ++ [e]) (shares ++ [b.shared e.1])
      (if b.counter < b.blockRestartInterval then restarts else restarts ++ [entries.length])
      (b.push e) := by
  have hencodings : encodings (shares ++ [b.shared e.1]) (entries ++ [e]) =
      encodings shares entries ++ [BlockEntry.encode (b.shared e.1) e] := by
    rw [encodings, zipWith_append h.length_eq]
    rfl
  have hlen := h.length_encodings
  have hoffs : b.restarts =
      restarts.map fun r =>
        offset (encodings (shares ++ [b.shared e.1]) (entries ++ [e])) r % 2 ^ 32 := by
    rw [h.restarts_eq, hencodings]
    refine map_congr_left fun r hr => ?_
    rw [offset_append]
    rcases h.restart_lt r hr with rfl | hlt
    · exact Nat.zero_le _
    · exact hlen ▸ hlt.le
  refine { h.coded_push e with
    buffer_eq := ?_
    lastKey_eq := ?_
    restarts_eq := ?_
    interval_eq := h.interval_eq
    unfinished := h.unfinished
    counter_le := ?_
    ne_nil := fun _ => by simp }
  · change b.buffer ++ _ = _
    rw [h.buffer_eq, hencodings, flatten_append]
    simp
  · rw [h.push_lastKey, keyBefore, take_length]
    simp
  · change (if _ then b.restarts else b.restarts ++ [b.buffer.length % 2 ^ 32]) = _
    split_ifs
    · exact hoffs
    · rw [map_append, ← hoffs, hencodings, map_singleton, offset_append hlen.ge,
        ← hlen, offset_length, h.buffer_eq]
  · change (if _ then b.counter else 0) + 1 ≤ interval
    have := h.interval_eq
    split_ifs <;> omega

end Push

/-- **Every list of entries is written with some shared prefixes and restart points.** -/
theorem exists_written (hint : 1 ≤ interval) (entries : List Pair) :
    ∃ shares restarts, Written interval entries shares restarts (ofEntries interval entries) := by
  induction entries using List.reverseRecOn with
  | nil => exact ⟨[], [0], written_new hint⟩
  | append_singleton entries e ih =>
    obtain ⟨shares, restarts, h⟩ := ih
    rw [ofEntries, foldl_append]
    exact ⟨_, _, h.push e hint⟩

theorem Written.add_eq (h : Written interval entries shares restarts b)
    {cmp : Compare} {key : Bytes} (value : Bytes)
    (hkey : entries = [] ∨ cmp key (keyBefore entries entries.length) = .gt) :
    b.add cmp key value = some (b.push (key, value)) := by
  have hassert : b.buffer = [] ∨ cmp key b.lastKey = .gt := by
    refine hkey.imp (fun hempty => ?_) fun hgt => h.lastKey_eq ▸ hgt
    rw [h.buffer_eq, hempty, encodings, zipWith_nil_right, flatten_nil]
  have hc : b.counter ≤ b.blockRestartInterval := h.interval_eq ▸ h.counter_le
  simp [add, guard, h.unfinished, hc, hassert]

/-- An entry behind sorted entries passes the assertion. -/
theorem eq_nil_or_gt {cmp : Compare} [Std.OrientedCmp cmp] {e : Pair}
    (hsort : Increasing cmp (entries ++ [e])) :
    entries = [] ∨ cmp e.1 (keyBefore entries entries.length) = .gt := by
  rcases eq_nil_or_concat' entries with rfl | ⟨init, x, rfl⟩
  · exact .inl rfl
  · have hlast : keyBefore (init ++ [x]) (init ++ [x]).length = x.1 := by
      rw [keyBefore, take_length]
      simp
    rw [hlast]
    exact .inr (Std.OrientedCmp.gt_of_lt
      ((pairwise_append.mp hsort).2.2 x (by simp) e (mem_singleton_self e)))

/-- **No assertion fails on sorted entries.** -/
theorem add_ofEntries (hint : 1 ≤ interval) {cmp : Compare}
    {e : Pair} (hkey : entries = [] ∨ cmp e.1 (keyBefore entries entries.length) = .gt) :
    (ofEntries interval entries).add cmp e.1 e.2 = some (ofEntries interval (entries ++ [e])) := by
  obtain ⟨shares, restarts, h⟩ := exists_written hint entries
  rw [h.add_eq e.2 hkey, ofEntries, ofEntries, foldl_append]
  rfl

theorem buffer_ofEntries_eq_nil (hint : 1 ≤ interval) :
    (ofEntries interval entries).buffer = [] ↔ entries = [] := by
  obtain ⟨shares, restarts, h⟩ := exists_written hint entries
  refine ⟨fun hbuf => ?_, fun hents => by rw [hents]; rfl⟩
  rw [h.buffer_eq, flatten_eq_nil_iff] at hbuf
  have hlen := h.length_encodings
  by_contra hents
  obtain ⟨x, hx⟩ : ∃ x, x ∈ encodings shares entries :=
    exists_mem_of_length_pos (hlen ▸ length_pos_iff.mpr hents)
  exact encodings_ne_nil x hx (hbuf x hx)

theorem reset_ofEntries (hint : 1 ≤ interval) (entries : List Pair) :
    (ofEntries interval entries).reset = ofEntries interval [] := by
  obtain ⟨shares, restarts, h⟩ := exists_written hint entries
  rw [reset, h.interval_eq]
  rfl

end BlockBuilder

/-! ### What readers know about a block -/

/-- The bytes of a block hold these entries. -/
structure Block.Holds (block : Block) (entries : List Pair) (shares restarts : List ℕ) :
    Prop extends Coded entries shares restarts where
  bytes_eq : ∃ tail, block.bytes = (encodings shares entries).flatten ++ tail
  restartOffset_eq : block.restartOffset = (encodings shares entries).flatten.length
  numRestarts_eq : block.numRestarts = restarts.length
  restart_eq : ∀ {j r}, restarts[j]? = some r →
    block.restartOffset + j * 4 + 4 ≤ block.bytes.length ∧
      decodeFixed32 (block.bytes.drop (block.restartOffset + j * 4)) =
        offset (encodings shares entries) r
  fits : ∀ {i n : ℕ} {e : Pair}, shares[i]? = some n → entries[i]? = some e →
    n < 2 ^ 32 ∧ e.1.length - n < 2 ^ 32 ∧ e.2.length < 2 ^ 32

section Coded

variable {entries : List Pair} {shares restarts : List ℕ} {i n : ℕ} {e : Pair}

theorem keyBefore_succ (he : entries[i]? = some e) : keyBefore entries (i + 1) = e.1 := by
  obtain ⟨hi, rfl⟩ := List.getElem?_eq_some_iff.mp he
  rw [keyBefore, take_succ_eq_append_getElem hi, getLast?_append]
  rfl

theorem getElem?_encodings (hn : shares[i]? = some n) (he : entries[i]? = some e) :
    (encodings shares entries)[i]? = some (BlockEntry.encode n e) := by
  rw [encodings, getElem?_zipWith, hn, he]

theorem Coded.exists_shared (h : Coded entries shares restarts) (he : entries[i]? = some e) :
    ∃ n, shares[i]? = some n := by
  obtain ⟨hi, -⟩ := List.getElem?_eq_some_iff.mp he
  exact ⟨_, getElem?_eq_getElem (h.length_eq ▸ hi)⟩

/-- A key is not longer than what has been written up to it. -/
theorem Coded.length_keyBefore_le (h : Coded entries shares restarts) (i : ℕ) :
    (keyBefore entries i).length ≤ offset (encodings shares entries) i := by
  induction i with
  | zero => simp [keyBefore]
  | succ i ih =>
    rcases he : entries[i]? with _ | e
    · have hlen := List.getElem?_eq_none_iff.mp he
      have hsame : keyBefore entries (i + 1) = keyBefore entries i := by
        rw [keyBefore, keyBefore, take_of_length_le hlen,
          take_of_length_le (hlen.trans (Nat.le_succ i))]
      exact hsame ▸ ih.trans (offset_mono (Nat.le_succ i))
    · obtain ⟨n, hn⟩ := h.exists_shared he
      have hle := h.shared_le hn
      have hlen : e.1.length - n ≤ (BlockEntry.encode n e).length := by
        simp only [BlockEntry.encode, BlockEntry.encodeStreaming, length_append, length_drop]
        omega
      rw [keyBefore_succ he, offset_succ (getElem?_encodings hn he)]
      omega

end Coded

open BlockBuilder in
/-- **A block that was written is accepted**, as a block that holds its entries. Its offsets and
lengths are `u32`. -/
theorem exists_holds {interval : ℕ} (hint : 1 ≤ interval) {entries : List Pair}
    (hsize : (blockBytes interval entries).length < 2 ^ 32) :
    ∃ block shares restarts, Block.new (blockBytes interval entries) = .ok block ∧
      block.Holds entries shares restarts := by
  obtain ⟨shares, restarts, h⟩ := exists_written hint entries
  have hbytes : blockBytes interval entries = (encodings shares entries).flatten ++
      ((restarts.map fun r => offset (encodings shares entries) r % 2 ^ 32).flatMap putFixed32 ++
        putFixed32 (restarts.length % 2 ^ 32)) := by
    rw [blockBytes, finish, h.buffer_eq, h.restarts_eq, length_map]
  have hlen : (blockBytes interval entries).length =
      (encodings shares entries).flatten.length + restarts.length * 4 + 4 := by
    rw [hbytes, length_append, length_append, length_flatMap_putFixed32,
      length_putFixed32, length_map]
    omega
  have hcnt : decodeFixed32 ((blockBytes interval entries).drop
      ((blockBytes interval entries).length - 4)) = restarts.length := by
    have hdrop : (blockBytes interval entries).drop ((blockBytes interval entries).length - 4) =
        putFixed32 restarts.length := by
      rw [hlen, Nat.add_sub_cancel, hbytes, ← append_assoc, Nat.mod_eq_of_lt (by omega)]
      refine drop_left' ?_
      rw [length_append, length_flatMap_putFixed32, length_map]
    rw [hdrop, ← append_nil (putFixed32 _), decodeFixed32_putFixed32 _ (by omega)]
  refine ⟨⟨blockBytes interval entries, (encodings shares entries).flatten.length, restarts.length⟩,
    shares, restarts, ?_, { h.toCoded with
      bytes_eq := ⟨_, hbytes⟩
      restartOffset_eq := rfl
      numRestarts_eq := rfl
      restart_eq := ?_
      fits := ?_ }⟩
  · rw [Block.new, hcnt, hlen, if_neg (by omega)]
    dsimp only
    rw [if_neg (by omega)]
    congr 2
    omega
  · intro j r hr
    dsimp only
    obtain ⟨hj, -⟩ := List.getElem?_eq_some_iff.mp hr
    have hoff : offset (encodings shares entries) r < 2 ^ 32 := (offset_le _ r).trans_lt (by omega)
    refine ⟨by omega, ?_⟩
    rw [hbytes]
    exact decodeFixed32_drop_array (by simpa [hr] using hoff) hoff _ _
  · intro i n e hn he
    have hle := h.toCoded.length_keyBefore_le i
    have hshared := h.shared_le hn
    have hend := offset_le (encodings shares entries) (i + 1)
    rw [offset_succ (getElem?_encodings hn he)] at hend
    have hentry : e.1.length - n + e.2.length ≤ (BlockEntry.encode n e).length := by
      simp only [BlockEntry.encode, BlockEntry.encodeStreaming, length_append, length_drop]
      omega
    omega

end PulsearcDb
