import PulsearcDb.Filter
import PulsearcDb.Foundation.ReadThrough
import PulsearcDb.Foundation.Runs
import PulsearcDb.Foundation.UseHistory
import Mathlib.Algebra.BigOperators.Group.List.Basic
import Mathlib.Data.List.Nodup

/-!
# The shards of the cache

`LruShard` (`cache/cache.rs`) is a map from keys to entries. The sum of the charges is kept beside
it, and a counter that goes up with every insertion and lookup dates the entries. An insertion takes
out the entries with the oldest dates until there is room.

`LoggedShard` is a shard with the history of its keys (`Foundation.UseHistory`), evictions included.
`LoggedShard.Faithful` says that the shard is what the history says it is, and every operation keeps
it (`Faithful.step`). A cache of such shards returns only what was last inserted
(`ShardedLRUCache.lawful`), which is what the readers of tables rely on.
-/

namespace PulsearcDb

open UseHistory List

/-- `struct Entry`. -/
structure CacheEntry (V : Type) where
  value : V
  charge : ℕ

/-- An entry with the time of its last use. -/
structure ShardEntry (V : Type) where
  arc : CacheEntry V
  lastAccess : ℕ

/-- `struct LruShard`. The hash map is a list with one entry for each key. -/
structure LruShard (V : Type) where
  entries : List (Bytes × ShardEntry V)
  usage : ℕ
  capacity : ℕ
  counter : ℕ
  nodup : (entries.map Prod.fst).Nodup

namespace LruShard

variable {V : Type}

/-- An empty shard. -/
def new (capacity : ℕ) : LruShard V := ⟨[], 0, capacity, 0, nodup_nil⟩

/-- The entry of a key. -/
def get (s : LruShard V) (key : Bytes) : Option (ShardEntry V) :=
  (s.entries.find? (·.1 = key)).map Prod.snd

/-- The sum of the charges. -/
def charges (entries : List (Bytes × ShardEntry V)) : ℕ := (entries.map (·.2.arc.charge)).sum

/-- The entries whose keys meet a condition. -/
def keep (s : LruShard V) (p : Bytes → Bool) (usage : ℕ) : LruShard V :=
  { s with
    entries := s.entries.filter (p ·.1)
    usage
    nodup := s.nodup.sublist (filter_sublist.map Prod.fst) }

/-- Remove the entry of a key. -/
def erase (s : LruShard V) (key : Bytes) : LruShard V :=
  match s.get key with
  | some old => s.keep (· ≠ key) (s.usage - old.arc.charge)
  | none => s

/-- The first entry with the smallest `last_access`. -/
def oldest : List (Bytes × ShardEntry V) → Option (Bytes × ShardEntry V)
  | [] => none
  | p :: rest =>
    match oldest rest with
    | none => some p
    | some q => if p.2.lastAccess ≤ q.2.lastAccess then some p else some q

/-- `evict_oldest`; the entry is removed as by `erase`. -/
def evictOldest (s : LruShard V) : LruShard V :=
  match oldest s.entries with
  | some p => s.erase p.1
  | none => s

/-- The counter goes up and the entry is dated with it. -/
def touch (s : LruShard V) (key : Bytes) : LruShard V :=
  { s with
    entries := s.entries.map fun p =>
      if p.1 = key then (p.1, { p.2 with lastAccess := s.counter + 1 }) else p
    counter := s.counter + 1
    nodup := by
      have hkeys : (Prod.fst ∘ fun p : Bytes × ShardEntry V =>
          if p.1 = key then (p.1, { p.2 with lastAccess := s.counter + 1 }) else p) = Prod.fst := by
        funext p
        rw [Function.comp_apply]
        split_ifs <;> rfl
      rw [map_map, hkeys]
      exact s.nodup }

/-- A hit counts as a use. -/
def lookup (s : LruShard V) (key : Bytes) : Option (CacheEntry V) × LruShard V :=
  match s.get key with
  | some e => (some e.arc, s.touch key)
  | none => (none, { s with counter := s.counter + 1 })

/-- `prune`; `held` are the keys whose entries have another reference. -/
def prune (s : LruShard V) (held : Bytes → Bool) : LruShard V :=
  s.keep held (charges (s.entries.filter (held ·.1)))

/-! ### Entries -/

variable {s : LruShard V} {key : Bytes} {p q : Bytes × ShardEntry V} {e : ShardEntry V}

theorem eq_of_mem (hp : p ∈ s.entries) (hq : q ∈ s.entries) (h : p.1 = q.1) : p = q :=
  inj_on_of_nodup_map s.nodup hp hq h

variable {l : List (Bytes × ShardEntry V)}

theorem find_spec (h : l.find? (·.1 = key) = some p) : p ∈ l ∧ p.1 = key :=
  ⟨mem_of_find?_eq_some h, by simpa using find?_some h⟩

theorem get_eq_some_iff : s.get key = some e ↔ (key, e) ∈ s.entries := by
  rw [get, Option.map_eq_some_iff]
  constructor
  · rintro ⟨p, hfind, rfl⟩
    obtain ⟨hmem, rfl⟩ := find_spec hfind
    exact hmem
  · intro hmem
    cases hfind : s.entries.find? (·.1 = key) with
    | none => exact absurd (decide_eq_true rfl) (find?_eq_none.mp hfind _ hmem)
    | some p =>
      obtain ⟨hp, hkey⟩ := find_spec hfind
      exact ⟨p, rfl, congrArg Prod.snd (eq_of_mem hp hmem hkey)⟩

theorem get_eq_none_iff : s.get key = none ↔ ∀ p ∈ s.entries, p.1 ≠ key := by
  rw [get, Option.map_eq_none_iff, find?_eq_none]
  exact forall₂_congr fun p _ => by rw [decide_eq_true_eq]

theorem mem_erase : p ∈ (s.erase key).entries ↔ p ∈ s.entries ∧ p.1 ≠ key := by
  rw [erase]
  split
  · rw [keep, mem_filter, decide_eq_true_eq]
  · next hnone => exact ⟨fun h => ⟨h, get_eq_none_iff.mp hnone p h⟩, fun h => h.1⟩

theorem entries_erase : (s.erase key).entries = s.entries.filter (·.1 ≠ key) := by
  rw [erase]
  split
  · rfl
  · next hnone =>
    refine (filter_eq_self.mpr fun p hp => decide_eq_true ?_).symm
    exact get_eq_none_iff.mp hnone p hp

theorem oldest_eq_none_iff : oldest l = none ↔ l = [] := by
  cases l with
  | nil => exact iff_of_true rfl rfl
  | cons x rest =>
    rw [oldest]
    refine iff_of_false ?_ (cons_ne_nil x rest)
    cases oldest rest with
    | none => exact fun h => by cases h
    | some q =>
      dsimp only
      split_ifs <;> exact fun h => by cases h

/-- No entry is older than the oldest one. -/
theorem oldest_spec (h : oldest l = some p) : p ∈ l ∧ ∀ q ∈ l, p.2.lastAccess ≤ q.2.lastAccess := by
  induction l generalizing p with
  | nil => cases h
  | cons x rest ih =>
    rw [oldest] at h
    cases hrest : oldest rest with
    | none =>
      rw [hrest] at h
      obtain rfl := Option.some.inj h
      rw [oldest_eq_none_iff.mp hrest]
      exact ⟨mem_cons_self, fun q hq => (mem_singleton.mp hq) ▸ le_rfl⟩
    | some y =>
      obtain ⟨hy, hle⟩ := ih hrest
      rw [hrest] at h
      dsimp only at h
      split_ifs at h with hxy
      · obtain rfl := Option.some.inj h
        refine ⟨mem_cons_self, forall_mem_cons.mpr ⟨le_rfl, fun q hq => ?_⟩⟩
        exact hxy.trans (hle q hq)
      · obtain rfl := Option.some.inj h
        exact ⟨mem_cons_of_mem x hy, forall_mem_cons.mpr ⟨(not_le.mp hxy).le, hle⟩⟩

/-! ### Charges -/

/-- The entry of a key and the other entries. -/
theorem perm_cons_filter (h : (key, e) ∈ s.entries) :
    s.entries.Perm ((key, e) :: s.entries.filter (·.1 ≠ key)) := by
  have hnodup : s.entries.Nodup := s.nodup.of_map
  have hnodup' : ((key, e) :: s.entries.filter (·.1 ≠ key)).Nodup :=
    nodup_cons.mpr ⟨by simp, hnodup.filter _⟩
  rw [perm_ext_iff_of_nodup hnodup hnodup']
  intro p
  rw [mem_cons, mem_filter, decide_eq_true_eq]
  constructor
  · intro hp
    by_cases hkey : p.1 = key
    · exact .inl (eq_of_mem hp h hkey)
    · exact .inr ⟨hp, hkey⟩
  · rintro (rfl | ⟨hp, -⟩)
    · exact h
    · exact hp

theorem usage_erase (h : s.usage = charges s.entries) :
    (s.erase key).usage = charges (s.erase key).entries := by
  cases hget : s.get key with
  | none => simpa only [erase, hget] using h
  | some old =>
    have hsum : charges s.entries = old.arc.charge + charges (s.entries.filter (·.1 ≠ key)) := by
      have hperm := (perm_cons_filter (get_eq_some_iff.mp hget)).map (·.2.arc.charge)
      exact hperm.sum_eq.trans sum_cons
    rw [entries_erase]
    simp only [erase, hget, keep]
    omega

theorem length_erase_lt (h : (key, e) ∈ s.entries) :
    (s.erase key).entries.length < s.entries.length := by
  rw [entries_erase, (perm_cons_filter h).length_eq]
  exact Nat.lt_succ_self _

theorem length_evictOldest_lt (h : s.entries ≠ []) :
    s.evictOldest.entries.length < s.entries.length := by
  rw [evictOldest]
  split
  · next p hp => exact length_erase_lt (oldest_spec hp).1
  · next hnone => exact absurd (oldest_eq_none_iff.mp hnone) h

/-- The loop of `insert`. -/
def makeRoom (s : LruShard V) (charge : ℕ) : LruShard V :=
  if s.capacity < s.usage + charge ∧ s.entries ≠ [] then s.evictOldest.makeRoom charge else s
termination_by s.entries.length
decreasing_by exact length_evictOldest_lt (by simp_all)

/-- The insertion into the map. -/
def put (s : LruShard V) (key : Bytes) (arc : CacheEntry V) : LruShard V :=
  { s with
    entries := s.entries.filter (·.1 ≠ key) ++ [(key, ⟨arc, s.counter + 1⟩)]
    usage := s.usage + arc.charge
    counter := s.counter + 1
    nodup := by
      rw [map_append, nodup_append]
      refine ⟨s.nodup.sublist (filter_sublist.map Prod.fst), nodup_singleton _, ?_⟩
      intro a ha b hb
      obtain ⟨p, hp, rfl⟩ := mem_map.mp ha
      rw [map_singleton, mem_singleton] at hb
      rw [hb]
      exact of_decide_eq_true (mem_filter.mp hp).2 }

/-- Replace the entry of the key and make room for it. -/
def insert (s : LruShard V) (key : Bytes) (value : V) (charge : ℕ) : CacheEntry V × LruShard V :=
  let s := s.erase key
  let s := s.makeRoom charge
  (⟨value, charge⟩, s.put key ⟨value, charge⟩)

end LruShard

/-! ### Operations and their history -/

/-- A call on a shard. For `prune` it is said which keys have entries with another reference. -/
inductive ShardOp (V : Type)
  | insert (key : Bytes) (value : V) (charge : ℕ)
  | lookup (key : Bytes)
  | erase (key : Bytes)
  | prune (held : Bytes → Bool)

/-- Why an entry is not there any more. -/
inductive Removal
  | erased
  | pruned
  | evicted
  | replaced
  deriving DecidableEq

/-- One operation. -/
def LruShard.step {V : Type} (s : LruShard V) : ShardOp V → LruShard V
  | .insert key value charge => (s.insert key value charge).2
  | .lookup key => (s.lookup key).2
  | .erase key => s.erase key
  | .prune held => s.prune held

/-- A shard and what has happened to its keys, the newest first. -/
structure LoggedShard (V : Type) where
  shard : LruShard V
  history : List (Event Bytes (CacheEntry V) Removal)

namespace LoggedShard

variable {V : Type}

/-- An empty shard without a history. -/
def new (capacity : ℕ) : LoggedShard V := ⟨.new capacity, []⟩

/-- An entry is removed, for a cause. -/
def remove (l : LoggedShard V) (cause : Removal) (key : Bytes) : LoggedShard V :=
  ⟨l.shard.erase key, .remove cause key :: l.history⟩

/-- The eviction is recorded. -/
def evictOldest (l : LoggedShard V) : LoggedShard V :=
  match LruShard.oldest l.shard.entries with
  | some p => l.remove .evicted p.1
  | none => l

theorem shard_evictOldest (l : LoggedShard V) : l.evictOldest.shard = l.shard.evictOldest := by
  rw [evictOldest, LruShard.evictOldest]
  split <;> rfl

/-- Evict until there is room or nothing left. -/
def makeRoom (l : LoggedShard V) (charge : ℕ) : LoggedShard V :=
  if l.shard.capacity < l.shard.usage + charge ∧ l.shard.entries ≠ [] then
    l.evictOldest.makeRoom charge
  else l
termination_by l.shard.entries.length
decreasing_by
  rw [shard_evictOldest]
  exact LruShard.length_evictOldest_lt (by simp_all)

theorem shard_makeRoom (l : LoggedShard V) (charge : ℕ) :
    (l.makeRoom charge).shard = l.shard.makeRoom charge := by
  fun_induction makeRoom l charge with
  | case1 l hfull ih => rw [ih, LruShard.makeRoom.eq_def l.shard, if_pos hfull, shard_evictOldest]
  | case2 l hroom => rw [LruShard.makeRoom, if_neg hroom]

/-- The operations on a shard with its history. -/
def step (l : LoggedShard V) : ShardOp V → LoggedShard V
  | .insert key value charge =>
    let l := (l.remove .replaced key).makeRoom charge
    ⟨l.shard.put key ⟨value, charge⟩, .insert key ⟨value, charge⟩ :: l.history⟩
  | .lookup key =>
    match l.shard.get key with
    | some _ => ⟨(l.shard.lookup key).2, .hit key :: l.history⟩
    | none => ⟨(l.shard.lookup key).2, l.history⟩
  | .erase key => l.remove .erased key
  | .prune held =>
    ⟨l.shard.prune held,
      removeAll .pruned ((l.shard.entries.filter (!held ·.1)).map Prod.fst) l.history⟩

/-- The history does not change what the shard does. -/
theorem shard_step (l : LoggedShard V) (op : ShardOp V) : (l.step op).shard = l.shard.step op := by
  cases op with
  | insert key value charge =>
    rw [step, LruShard.step, LruShard.insert, shard_makeRoom]
    rfl
  | lookup key =>
    rw [step, LruShard.step]
    split <;> rfl
  | erase key => rfl
  | prune held => rfl

theorem shard_run (l : LoggedShard V) (ops : List (ShardOp V)) :
    (Runs.run step l ops).shard = Runs.run LruShard.step l.shard ops := by
  induction ops generalizing l with
  | nil => rfl
  | cons op ops ih => rw [Runs.run_cons, Runs.run_cons, ih, shard_step]

/-! ### The history and the shard -/

variable {l : LoggedShard V} {key : Bytes}

/-- **The shard is what the history says**: its entries are the keys with a value, their dates are
in the order of their last uses, and what was evicted had not been used for longest. -/
structure Faithful (l : LoggedShard V) : Prop where
  usage : l.shard.usage = LruShard.charges l.shard.entries
  live : ∀ k, (l.shard.get k).map ShardEntry.arc = UseHistory.live l.history k
  access_le : ∀ p ∈ l.shard.entries, p.2.lastAccess ≤ l.shard.counter
  order : ∀ p ∈ l.shard.entries, ∀ q ∈ l.shard.entries,
    p.2.lastAccess < q.2.lastAccess ↔ lastUse l.history p.1 < lastUse l.history q.1
  evicts : RemovesOldest .evicted l.history

theorem faithful_new (capacity : ℕ) : (new capacity : LoggedShard V).Faithful where
  usage := rfl
  live _ := rfl
  access_le _ hp := absurd hp not_mem_nil
  order _ hp := absurd hp not_mem_nil
  evicts := removesOldest_nil _

theorem get_erase (s : LruShard V) (key k : Bytes) :
    (s.erase key).get k = if key = k then none else s.get k := by
  split_ifs with hkey
  · subst hkey
    exact LruShard.get_eq_none_iff.mpr fun p hp => (LruShard.mem_erase.mp hp).2
  · ext e
    rw [LruShard.get_eq_some_iff, LruShard.get_eq_some_iff, LruShard.mem_erase]
    exact and_iff_left (Ne.symm hkey)

theorem counter_erase (s : LruShard V) (key : Bytes) :
    (s.erase key).counter = s.counter ∧ (s.erase key).capacity = s.capacity := by
  rw [LruShard.erase]
  split <;> exact ⟨rfl, rfl⟩

/-- An entry is removed, if for lack of room then the oldest one. -/
theorem Faithful.remove (h : l.Faithful) {cause : Removal}
    (hc : RemovesOldest .evicted (.remove cause key :: l.history)) :
    (l.remove cause key).Faithful where
  usage := LruShard.usage_erase h.usage
  live k := by
    change ((l.shard.erase key).get k).map ShardEntry.arc = _
    rw [get_erase, LoggedShard.remove, UseHistory.live, ← h.live k]
    split_ifs <;> rfl
  access_le p hp := (h.access_le p (LruShard.mem_erase.mp hp).1).trans_eq
    (counter_erase l.shard key).1.symm
  order p hp q hq := h.order p (LruShard.mem_erase.mp hp).1 q (LruShard.mem_erase.mp hq).1
  evicts := hc

theorem Faithful.evictOldest (h : l.Faithful) : l.evictOldest.Faithful := by
  rw [LoggedShard.evictOldest]
  split
  · next p hp =>
    obtain ⟨hmem, holdest⟩ := LruShard.oldest_spec hp
    refine h.remove (removesOldest_cons h.evicts ?_ fun k hk => ?_)
    · rw [← h.live, LruShard.get_eq_some_iff.mpr hmem]
      exact Option.some_ne_none _
    · rw [← h.live, ne_eq, Option.map_eq_none_iff] at hk
      obtain ⟨e, he⟩ := Option.ne_none_iff_exists'.mp hk
      have hq := LruShard.get_eq_some_iff.mp he
      exact not_lt.mp fun hlt => not_lt.mpr (holdest _ hq) ((h.order _ hq p hmem).mpr hlt)
  · exact h

theorem Faithful.makeRoom (h : l.Faithful) (charge : ℕ) : (l.makeRoom charge).Faithful := by
  fun_induction LoggedShard.makeRoom l charge with
  | case1 l hfull ih => exact ih h.evictOldest
  | case2 => exact h

/-- A key is used: its entry gets the newest date. -/
theorem Faithful.order_of_use (h : l.Faithful) {entries : List (Bytes × ShardEntry V)}
    (hents : ∀ p ∈ entries, p.1 = key ∧ p.2.lastAccess = l.shard.counter + 1 ∨
      p.1 ≠ key ∧ p ∈ l.shard.entries)
    {event : Event Bytes (CacheEntry V) Removal}
    (hevent : ∀ k, lastUse (event :: l.history) k =
      if key = k then l.history.length + 1 else lastUse l.history k) :
    (∀ p ∈ entries, p.2.lastAccess ≤ l.shard.counter + 1) ∧
      ∀ p ∈ entries, ∀ q ∈ entries, p.2.lastAccess < q.2.lastAccess ↔
        lastUse (event :: l.history) p.1 < lastUse (event :: l.history) q.1 := by
  refine ⟨fun p hp => ?_, fun p hp q hq => ?_⟩
  · rcases hents p hp with ⟨-, haccess⟩ | ⟨-, hmem⟩
    · exact haccess.le
    · exact (h.access_le p hmem).trans (Nat.le_succ _)
  · rw [hevent, hevent]
    rcases hents p hp with ⟨hpkey, hpaccess⟩ | ⟨hpkey, hpmem⟩ <;>
      rcases hents q hq with ⟨hqkey, hqaccess⟩ | ⟨hqkey, hqmem⟩
    · rw [if_pos hpkey.symm, if_pos hqkey.symm, hpaccess, hqaccess]
      exact iff_of_false (lt_irrefl _) (lt_irrefl _)
    · rw [if_pos hpkey.symm, if_neg (Ne.symm hqkey), hpaccess]
      have haccess := h.access_le q hqmem
      have huse := lastUse_le_length l.history q.1
      exact iff_of_false (by omega) (by omega)
    · rw [if_neg (Ne.symm hpkey), if_pos hqkey.symm, hqaccess]
      have haccess := h.access_le p hpmem
      have huse := lastUse_le_length l.history p.1
      exact iff_of_true (by omega) (by omega)
    · rw [if_neg (Ne.symm hpkey), if_neg (Ne.symm hqkey)]
      exact h.order p hpmem q hqmem

variable {s : LruShard V} {p : Bytes × ShardEntry V}

theorem mem_put {arc : CacheEntry V} :
    p ∈ (s.put key arc).entries ↔ p ∈ s.entries ∧ p.1 ≠ key ∨ p = (key, ⟨arc, s.counter + 1⟩) := by
  rw [LruShard.put, mem_append, mem_filter, decide_eq_true_eq, mem_singleton]

theorem get_put (s : LruShard V) (key : Bytes) (arc : CacheEntry V) (k : Bytes) :
    (s.put key arc).get k = if key = k then some ⟨arc, s.counter + 1⟩ else s.get k := by
  ext e
  rw [LruShard.get_eq_some_iff, mem_put, Prod.mk.injEq]
  split_ifs with hkey
  · subst hkey
    simp [eq_comm]
  · rw [LruShard.get_eq_some_iff]
    simp [Ne.symm hkey]

/-- An entry is inserted under a key that is not there. -/
theorem Faithful.put (h : l.Faithful) (hkey : l.shard.get key = none) (arc : CacheEntry V) :
    Faithful ⟨l.shard.put key arc, .insert key arc :: l.history⟩ := by
  have hnew := LruShard.get_eq_none_iff.mp hkey
  obtain ⟨haccess, hord⟩ := @Faithful.order_of_use V l key h (l.shard.put key arc).entries
    (fun p hp => by
      rcases mem_put.mp hp with ⟨hmem, hne⟩ | rfl
      · exact .inr ⟨hne, hmem⟩
      · exact .inl ⟨rfl, rfl⟩) (.insert key arc) fun k => rfl
  refine ⟨?_, fun k => ?_, haccess, hord, ?_⟩
  · have hall : l.shard.entries.filter (·.1 ≠ key) = l.shard.entries :=
      filter_eq_self.mpr fun p hp => decide_eq_true (hnew p hp)
    simp only [LruShard.put, hall, LruShard.charges, map_append, sum_append,
      map_singleton, sum_singleton, h.usage]
  · dsimp only
    rw [get_put, UseHistory.live, ← h.live k]
    split_ifs <;> rfl
  · exact removesOldest_cons_of_ne h.evicts fun k heq => by cases heq

theorem mem_makeRoom {charge : ℕ} (hp : p ∈ (s.makeRoom charge).entries) : p ∈ s.entries := by
  fun_induction LruShard.makeRoom s charge with
  | case1 s hfull ih =>
    have hmem := ih hp
    rw [LruShard.evictOldest] at hmem
    split at hmem
    · exact (LruShard.mem_erase.mp hmem).1
    · exact hmem
  | case2 => exact hp

theorem Faithful.insert (h : l.Faithful) (key : Bytes) (value : V) (charge : ℕ) :
    (l.step (.insert key value charge)).Faithful := by
  have hrem : (l.remove .replaced key).Faithful :=
    h.remove (removesOldest_cons_of_ne h.evicts fun k heq => by cases heq)
  refine (hrem.makeRoom charge).put ?_ ⟨value, charge⟩
  refine LruShard.get_eq_none_iff.mpr fun p hp => ?_
  rw [shard_makeRoom] at hp
  exact (LruShard.mem_erase.mp (mem_makeRoom hp)).2

theorem mem_touch (hp : p ∈ (s.touch key).entries) :
    p.1 = key ∧ p.2.lastAccess = s.counter + 1 ∨ p.1 ≠ key ∧ p ∈ s.entries := by
  obtain ⟨q, hq, rfl⟩ := mem_map.mp hp
  split_ifs with hkey
  · exact .inl ⟨hkey, rfl⟩
  · exact .inr ⟨hkey, hq⟩

theorem charges_touch (s : LruShard V) (key : Bytes) :
    LruShard.charges (s.touch key).entries = LruShard.charges s.entries := by
  rw [LruShard.charges, LruShard.charges, LruShard.touch, map_map]
  refine congrArg List.sum (map_congr_left fun p _ => ?_)
  rw [Function.comp_apply]
  split_ifs <;> rfl

theorem map_arc_get_touch (s : LruShard V) (key k : Bytes) :
    ((s.touch key).get k).map ShardEntry.arc = (s.get k).map ShardEntry.arc := by
  have hkeys : ((fun p : Bytes × ShardEntry V => decide (p.1 = k)) ∘ fun p =>
      if p.1 = key then (p.1, { p.2 with lastAccess := s.counter + 1 }) else p) =
        fun p => decide (p.1 = k) := by
    funext p
    rw [Function.comp_apply]
    split_ifs <;> rfl
  rw [LruShard.get, LruShard.touch, find?_map, hkeys, LruShard.get, Option.map_map,
    Option.map_map, Option.map_map]
  congr 1
  funext p
  rw [Function.comp_apply, Function.comp_apply, Function.comp_apply]
  split_ifs <;> rfl

theorem Faithful.lookup (h : l.Faithful) (key : Bytes) : (l.step (.lookup key)).Faithful := by
  rw [step, LruShard.lookup]
  cases hget : l.shard.get key with
  | none =>
    exact ⟨h.usage, h.live, fun p hp => (h.access_le p hp).trans (Nat.le_succ _), h.order, h.evicts⟩
  | some e =>
    obtain ⟨haccess, hord⟩ := @Faithful.order_of_use V l key h (l.shard.touch key).entries
      (fun p hp => mem_touch hp) (.hit key) fun k => rfl
    refine ⟨h.usage.trans (charges_touch l.shard key).symm, fun k => ?_, haccess, hord, ?_⟩
    · exact (map_arc_get_touch l.shard key k).trans (h.live k)
    · exact removesOldest_cons_of_ne h.evicts fun k heq => by cases heq

theorem mem_prune {held : Bytes → Bool} :
    p ∈ (s.prune held).entries ↔ p ∈ s.entries ∧ held p.1 = true :=
  mem_filter

theorem get_prune (s : LruShard V) (held : Bytes → Bool) (k : Bytes) :
    (s.prune held).get k =
      if k ∈ (s.entries.filter (!held ·.1)).map Prod.fst then none else s.get k := by
  split_ifs with hk
  · obtain ⟨p, hp, rfl⟩ := mem_map.mp hk
    refine LruShard.get_eq_none_iff.mpr fun q hq hkey => ?_
    have hheld := (mem_prune.mp hq).2
    rw [hkey] at hheld
    simp [hheld] at hp
  · ext e
    rw [LruShard.get_eq_some_iff, LruShard.get_eq_some_iff, mem_prune]
    refine and_iff_left_of_imp fun hmem => ?_
    by_contra hheld
    exact hk (mem_map.mpr ⟨(k, e), mem_filter.mpr ⟨hmem, by simpa using hheld⟩, rfl⟩)

theorem Faithful.prune (h : l.Faithful) (held : Bytes → Bool) :
    (l.step (.prune held)).Faithful where
  usage := rfl
  live k := by
    rw [step]
    dsimp only
    rw [get_prune, live_removeAll, ← h.live k]
    split_ifs <;> rfl
  access_le p hp := h.access_le p (mem_prune.mp hp).1
  order p hp q hq := by
    rw [step]
    dsimp only
    rw [lastUse_removeAll, lastUse_removeAll]
    exact h.order p (mem_prune.mp hp).1 q (mem_prune.mp hq).1
  evicts := removesOldest_removeAll h.evicts (by decide) _

/-- **Every operation keeps the shard faithful.** -/
theorem Faithful.step (h : l.Faithful) (op : ShardOp V) : (l.step op).Faithful := by
  cases op with
  | insert key value charge => exact h.insert key value charge
  | lookup key => exact h.lookup key
  | erase key => exact h.remove (removesOldest_cons_of_ne h.evicts fun k heq => by cases heq)
  | prune held => exact h.prune held

/-! ### Between the operations -/

/-- A key that was replaced has been inserted since. -/
def Settled (history : List (Event Bytes (CacheEntry V) Removal)) : Prop :=
  ∀ k, removal history k ≠ some .replaced

theorem removal_makeRoom {k : Bytes} (charge : ℕ) (h : removal l.history k ≠ some .replaced) :
    removal (l.makeRoom charge).history k ≠ some .replaced := by
  fun_induction LoggedShard.makeRoom l charge with
  | case1 l hfull ih =>
    refine ih ?_
    rw [evictOldest]
    split
    · rw [LoggedShard.remove, removal]
      split_ifs
      · exact fun heq => by cases heq
      · exact h
    · exact h
  | case2 => exact h

theorem settled_step (h : Settled l.history) (op : ShardOp V) : Settled (l.step op).history := by
  intro k
  cases op with
  | insert key value charge =>
    rw [step, removal]
    split_ifs with hkey
    · exact fun heq => by cases heq
    · refine removal_makeRoom charge ?_
      rw [LoggedShard.remove, removal, if_neg hkey]
      exact h k
  | lookup key =>
    rw [step]
    split <;> exact h k
  | erase key =>
    rw [step, LoggedShard.remove, removal]
    split_ifs
    · exact fun heq => by cases heq
    · exact h k
  | prune held =>
    intro hr
    rcases removal_removeAll hr with hc | hr
    · cases hc
    · exact h k hr

/-- There is room after an insertion, or the new entry is the only one. -/
theorem room_insert (s : LruShard V) (key : Bytes) (value : V) (charge : ℕ) :
    (s.insert key value charge).2.usage ≤ s.capacity ∨
      ∃ lastAccess, (s.insert key value charge).2.entries =
        [(key, ⟨⟨value, charge⟩, lastAccess⟩)] := by
  have hroom : ∀ s : LruShard V, (s.makeRoom charge).usage + charge ≤ s.capacity ∨
      (s.makeRoom charge).entries = [] := by
    intro s
    fun_induction LruShard.makeRoom s charge with
    | case1 s hfull ih =>
      have hcap : s.evictOldest.capacity = s.capacity := by
        rw [LruShard.evictOldest]
        split
        · exact (counter_erase s _).2
        · rfl
      rwa [hcap] at ih
    | case2 s hroom =>
      rw [not_and_or, not_lt, not_not] at hroom
      exact hroom
  rcases hroom (s.erase key) with husage | hempty
  · exact .inl (husage.trans_eq (counter_erase s key).2)
  · right
    refine ⟨((s.erase key).makeRoom charge).counter + 1, ?_⟩
    rw [LruShard.insert, LruShard.put]
    dsimp only
    rw [hempty]
    rfl

/-- **What the cache promises**, in a shard with its history. -/
structure Correct (l : LoggedShard V) : Prop where
  usage : l.shard.usage = LruShard.charges l.shard.entries
  room : ∀ key value charge, (l.shard.insert key value charge).2.usage ≤ l.shard.capacity ∨
    ∃ lastAccess, (l.shard.insert key value charge).2.entries =
      [(key, ⟨⟨value, charge⟩, lastAccess⟩)]
  hit : ∀ key arc, (l.shard.lookup key).1 = some arc →
    ∃ later older, l.history = later ++ .insert key arc :: older ∧
      ∀ event ∈ later, (∀ arc', event ≠ .insert key arc') ∧ ∀ cause, event ≠ .remove cause key
  miss : ∀ key, (l.shard.lookup key).1 = none → ∀ later arc older,
    l.history = later ++ .insert key arc :: older →
      ∃ cause, cause ≠ .replaced ∧ .remove cause key ∈ later
  evicts : RemovesOldest .evicted l.history

theorem Faithful.lookup_eq (h : l.Faithful) (key : Bytes) :
    (l.shard.lookup key).1 = UseHistory.live l.history key := by
  rw [← h.live key, LruShard.lookup]
  cases l.shard.get key <;> rfl

theorem Faithful.correct (h : l.Faithful) (hset : Settled l.history) : l.Correct where
  usage := h.usage
  room := room_insert l.shard
  hit key arc hhit := exists_of_live_eq_some ((h.lookup_eq key).symm.trans hhit)
  miss key hmiss later arc older hhistory := by
    have hlive := (h.lookup_eq key).symm.trans hmiss
    have hc := hset key
    rw [hhistory] at hlive hc
    obtain ⟨cause, hr, hmem⟩ := exists_remove_of_live_eq_none hlive
    exact ⟨cause, fun heq => hc (hr.trans (congrArg some heq)), hmem⟩
  evicts := h.evicts

/-- **Every run of a shard**: the history is one of the shard itself, and the shard keeps what the
cache promises. -/
theorem correct_run (capacity : ℕ) (ops : List (ShardOp V)) :
    (Runs.run step (new capacity) ops).shard = Runs.run LruShard.step (.new capacity) ops ∧
      (Runs.run step (new capacity : LoggedShard V) ops).Correct := by
  refine ⟨shard_run _ ops, ?_⟩
  have hinv := @Runs.invariant_of_step _ _ (step (V := V)) (new capacity) ops
    (fun l => l.Faithful ∧ Settled l.history)
    (fun l op h => ⟨h.1.step op, settled_step h.2 op⟩)
    ⟨faithful_new capacity, fun k heq => by cases heq⟩
  exact hinv.1.correct hinv.2

end LoggedShard

/-! ### Sharded caches -/

/-- Shards are chosen by four bits of the hash. -/
def numShardBits : ℕ := 4

/-- The number of shards. -/
def numShards : ℕ := 2 ^ numShardBits

/-- `struct ShardedLRUCache`, without the counter for ids. -/
structure ShardedLRUCache (V : Type) where
  shards : Fin numShards → LruShard V

namespace ShardedLRUCache

variable {V : Type}

/-- The capacity is shared out, rounded up. -/
def new (capacity : ℕ) : ShardedLRUCache V :=
  ⟨fun _ => .new ((capacity + numShards - 1) / numShards)⟩

/-- The shard of a key, by the highest bits of its hash. -/
def shardFor (key : Bytes) : Fin numShards :=
  ⟨(Hash.hash key 0).toNat / 2 ^ (32 - numShardBits), by
    have hlt := (Hash.hash key 0).toNat_lt
    rw [numShards, Nat.div_lt_iff_lt_mul (by decide), ← Nat.pow_add]
    exact hlt⟩

/-- `insert` in the shard of the key. -/
def insert (cache : ShardedLRUCache V) (key : Bytes) (value : V) (charge : ℕ) :
    ShardedLRUCache V :=
  ⟨Function.update cache.shards (shardFor key)
    ((cache.shards (shardFor key)).insert key value charge).2⟩

/-- `lookup` in the shard of the key. -/
def lookup (cache : ShardedLRUCache V) (key : Bytes) : Option V × ShardedLRUCache V :=
  let (arc, shard) := (cache.shards (shardFor key)).lookup key
  (arc.map CacheEntry.value, ⟨Function.update cache.shards (shardFor key) shard⟩)

/-- The cache as the readers of tables see it. -/
def cache (V : Type) : ReadThrough.Cache Bytes V (ShardedLRUCache V) := ⟨lookup, insert⟩

/-- What a cache holds is what was last inserted. -/
def Holds (cache : ShardedLRUCache V) (inserted : List (Bytes × V)) : Prop :=
  ∀ k e, (cache.shards (shardFor k)).get k = some e → inserted.lookup k = some e.arc.value

theorem holds_new (capacity : ℕ) : Holds (new capacity : ShardedLRUCache V) [] := by
  intro k e hget
  cases hget

/-- An insertion leaves no entries but the new one and old ones. -/
theorem get_insert {s : LruShard V} {key k : Bytes} {value : V} {charge : ℕ} {e : ShardEntry V}
    (h : (s.insert key value charge).2.get k = some e) :
    key = k ∧ e.arc.value = value ∨ key ≠ k ∧ s.get k = some e := by
  rw [LruShard.insert, LoggedShard.get_put] at h
  split_ifs at h with hkey
  · obtain rfl := Option.some.inj h
    exact .inl ⟨hkey, rfl⟩
  · have hmem := LoggedShard.mem_makeRoom (LruShard.get_eq_some_iff.mp h)
    exact .inr ⟨hkey, LruShard.get_eq_some_iff.mpr (LruShard.mem_erase.mp hmem).1⟩

/-- A lookup leaves the entries but for their dates. -/
theorem get_lookup {s : LruShard V} {key k : Bytes} {e : ShardEntry V}
    (h : (s.lookup key).2.get k = some e) : ∃ e', s.get k = some e' ∧ e'.arc = e.arc := by
  rw [LruShard.lookup] at h
  split at h
  · have harc := LoggedShard.map_arc_get_touch s key k
    rw [h, Option.map_some] at harc
    exact Option.map_eq_some_iff.mp harc.symm
  · exact ⟨e, h, rfl⟩

theorem lawful : (cache V).Lawful Holds where
  lookup_eq := by
    intro s inserted k v hh hlook
    change ((s.shards (shardFor k)).lookup k).1.map _ = some v at hlook
    rw [LruShard.lookup] at hlook
    split at hlook
    · next e he =>
      rw [hh k e he]
      exact hlook
    · cases hlook
  holds_lookup := by
    intro s inserted key hh k e hget
    simp only [cache, lookup] at hget
    by_cases hs : shardFor k = shardFor key
    · rw [hs, Function.update_self, ← hs] at hget
      obtain ⟨e', he', harc⟩ := get_lookup hget
      rw [hh k e' he', harc]
    · rw [Function.update_of_ne hs] at hget
      exact hh k e hget
  holds_insert := by
    intro s inserted key value charge hh k e hget
    simp only [cache, insert] at hget
    have hskip : key ≠ k → (s.shards (shardFor k)).get k = some e →
        ((key, value) :: inserted).lookup k = some e.arc.value := by
      intro hkey he
      rw [lookup_cons, beq_eq_false_iff_ne.mpr (Ne.symm hkey)]
      exact hh k e he
    by_cases hs : shardFor k = shardFor key
    · rw [hs, Function.update_self, ← hs] at hget
      rcases get_insert hget with ⟨rfl, hval⟩ | ⟨hkey, he⟩
      · rw [lookup_cons, beq_self_eq_true, hval]
      · exact hskip hkey he
    · rw [Function.update_of_ne hs] at hget
      exact hskip (fun heq => hs (congrArg shardFor heq.symm)) hget

/-- **The cache returns only what was last inserted**; a new one holds nothing. -/
theorem lawful_cache : (cache V).Lawful Holds ∧
    ∀ capacity, Holds (new capacity : ShardedLRUCache V) [] := ⟨lawful, holds_new⟩

end ShardedLRUCache
end PulsearcDb
