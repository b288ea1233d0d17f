import PulsearcDb.Format
import PulsearcDb.Foundation.Cursor
import PulsearcDb.Foundation.SkipChains
import Mathlib.Data.List.Induction
import Mathlib.Data.List.Perm.Subperm

/-!
# The skip list

`SkipList` of `skiplist/skiplist.rs`, the ordered set of keys behind a memtable. The nodes are in an
arena that only grows, and a pointer is a place in the arena; the head is the first node. A node has
one link for each level below its height. Following a null pointer or indexing the links of a node
behind its height has no value here, and neither has a search that does not end.

The three searches of the source run down from the highest level and differ in when they go on along
a level and in what they return (`descend`).

`Holds` is the invariant: in the order of the keys, the link of a node at a level leads to the next
node that is taller than the level. A search that goes on exactly over the keys of a front part of
the list ends at the last node of this part (`Holds.descend_eq`), and has met the nodes whose links
an insertion has to change.
-/

namespace PulsearcDb

open SkipChains List

/-- The largest height of a node. -/
def maxHeight : ℕ := 12

/-- One node in four is higher. -/
def branching : ℕ := 4

/-- `struct Node`. The height is the number of links, and a null pointer is `none`. -/
structure Node where
  key : Bytes
  next : List (Option ℕ)
  deriving DecidableEq, Repr

/-- `allocate_node_for_key`: all links are null. -/
def Node.new (key : Bytes) (height : ℕ) : Node := { key, next := List.replicate height none }

/-- `struct SkipList`. -/
structure SkipList (cmp : Compare) where
  nodes : List Node := [Node.new [] maxHeight]
  height : ℕ := 1
  rngState : ℕ := 0xdeadbeef &&& 0x7fffffff
  deriving DecidableEq

namespace SkipList

variable {cmp : Compare}

/-- The place of the head. -/
def head : ℕ := 0

/-- `next_at`, and `next_at_no_barrier`. -/
def nextAt (s : SkipList cmp) (x level : ℕ) : Option (Option ℕ) := do
  let node ← s.nodes[x]?
  node.next[level]?

/-- `set_next`, and `set_next_no_barrier`. -/
def setNext (s : SkipList cmp) (x level : ℕ) (pointer : Option ℕ) : Option (SkipList cmp) := do
  let node ← s.nodes[x]?
  guard (level < node.next.length)
  return { s with nodes := s.nodes.set x { node with next := node.next.set level pointer } }

/-! ### Searches -/

/-- The next node when a search goes on to it. -/
def forward (s : SkipList cmp) (goOn : Bytes → Bool) : Option ℕ → Option (Option ℕ)
  | none => some none
  | some y => do
    let node ← s.nodes[y]?
    return if goOn node.key then some y else none

/-- The loop of the searches: along a level as long as the next key says so, then one level down. It
ends with the last node that was reached and the one behind it. `prev` gets the node at which each
level was left. -/
def descend (s : SkipList cmp) (goOn : Bytes → Bool) :
    ℕ → ℕ → ℕ → List (Option ℕ) → Option (ℕ × Option ℕ × List (Option ℕ))
  | 0, _, _, _ => none
  | rounds + 1, x, level, prev => do
    let next ← s.nextAt x level
    match ← s.forward goOn next with
    | some y => descend s goOn rounds y level prev
    | none =>
      let prev := prev.set level (some x)
      match level with
      | 0 => return (x, next, prev)
      | level + 1 => descend s goOn rounds x level prev

/-- A search meets every node and every level at most once. -/
def rounds (s : SkipList cmp) : ℕ := s.nodes.length + s.height

/-- The loop from the head, at the highest level in use. -/
def search (s : SkipList cmp) (goOn : Bytes → Bool) :
    Option (ℕ × Option ℕ × List (Option ℕ)) :=
  s.descend goOn s.rounds head (s.height - 1) (List.replicate maxHeight none)

/-- The first node not before a key, and its predecessors. -/
def findGreaterOrEqual (s : SkipList cmp) (key : Bytes) :
    Option (Option ℕ × List (Option ℕ)) := do
  let (_, next, prev) ← s.search fun k => cmp k key == .lt
  return (next, prev)

/-- The last node before a key. -/
def findLessThan (s : SkipList cmp) (key : Bytes) : Option ℕ := do
  let (x, _, _) ← s.search fun k => cmp k key == .lt
  return x

/-- The last node. -/
def findLast (s : SkipList cmp) : Option ℕ := do
  let (x, _, _) ← s.search fun _ => true
  return x

/-- Whether a key is in the list. -/
def contains (s : SkipList cmp) (key : Bytes) : Option Bool := do
  let (n, _) ← s.findGreaterOrEqual key
  match n with
  | none => return false
  | some n => do
    let node ← s.nodes[n]?
    return cmp node.key key == .eq

/-! ### Insertion -/

/-- A turn of the loop that links a new node in. -/
def linkLevel (prev : List (Option ℕ)) (node : ℕ) (s : SkipList cmp) (i : ℕ) :
    Option (SkipList cmp) := do
  let prevNode ← (prev[i]?).join
  let s ← s.setNext node i (← s.nextAt prevNode i)
  s.setNext prevNode i (some node)

/-- A node of its own at the end of the arena, and the height of the list raised for it. -/
def allocateNode (s : SkipList cmp) (key : Bytes) (height : ℕ) : SkipList cmp :=
  { s with nodes := s.nodes ++ [Node.new key height], height := max s.height height }

/-- `insert_key_ptr`, with the height of the new node. -/
def insertWithHeight (s : SkipList cmp) (key : Bytes) (height : ℕ) : Option (SkipList cmp) := do
  let (existing, prev) ← s.findGreaterOrEqual key
  match existing with
  | none => pure ()
  | some n => do
    let node ← s.nodes[n]?
    guard (cmp node.key key ≠ .eq)
  let prev := (List.range' s.height (height - s.height)).foldl (·.set · (some head)) prev
  (List.range height).foldlM (linkLevel prev s.nodes.length) (s.allocateNode key height)

/-- The generator, in `u32` and `u64`. -/
def randomNext (state : ℕ) : ℕ :=
  let m := 2147483647
  let product := state * 16807
  let seed := ((product >>> 31) + (product &&& m)) % 2 ^ 32
  if m < seed then seed - m else seed

/-- The loop of `random_height`, with the state of the generator. -/
def raiseHeight (height state : ℕ) : ℕ × ℕ :=
  if height < maxHeight then
    let state := randomNext state
    if state % branching = 0 then raiseHeight (height + 1) state else (height, state)
  else (height, state)
  termination_by maxHeight - height

/-- A node of random height. -/
def insert (s : SkipList cmp) (key : Bytes) : Option (SkipList cmp) :=
  let (height, rngState) := raiseHeight 1 s.rngState
  ({ s with rngState } : SkipList cmp).insertWithHeight key height

end SkipList

/-- `struct SkipListIter`, and `struct SkipListCursor`, which has the same moves. -/
structure SkipListIter (cmp : Compare) where
  list : SkipList cmp
  node : Option ℕ := none

namespace SkipListIter

variable {cmp : Compare}

/-- The iterator is at a node. -/
def valid (it : SkipListIter cmp) : Bool := it.node.isSome

/-- The key, asserted to be there. -/
def key (it : SkipListIter cmp) : Option Bytes := do
  let node ← it.list.nodes[← it.node]?
  return node.key

/-- A node, where the head stands for none. -/
def notHead (x : ℕ) : Option ℕ := if x = SkipList.head then none else some x

/-- The node behind the head. -/
def seekToFirst (it : SkipListIter cmp) : Option (SkipListIter cmp) := do
  let node ← it.list.nextAt SkipList.head 0
  return { it with node }

/-- The last node that is not the head. -/
def seekToLast (it : SkipListIter cmp) : Option (SkipListIter cmp) := do
  let last ← it.list.findLast
  return { it with node := notHead last }

/-- The first node not before the target. -/
def seek (it : SkipListIter cmp) (target : Bytes) : Option (SkipListIter cmp) := do
  let (node, _) ← it.list.findGreaterOrEqual target
  return { it with node }

/-- The next node of the lowest chain. -/
def next (it : SkipListIter cmp) : Option (SkipListIter cmp) := do
  let node ← it.list.nextAt (← it.node) 0
  return { it with node }

/-- Search for the last node before the key. -/
def prev (it : SkipListIter cmp) : Option (SkipListIter cmp) := do
  let candidate ← it.list.findLessThan (← it.key)
  return { it with node := notHead candidate }

/-- One call. -/
def step (it : SkipListIter cmp) : Cursor.Call Bytes → Option (SkipListIter cmp)
  | .seekToFirst => it.seekToFirst
  | .seekToLast => it.seekToLast
  | .seek target => it.seek target
  | .next => it.next
  | .prev => it.prev

/-- What `valid` and `key` say. -/
def Shows (it : SkipListIter cmp) : Option Bytes → Prop
  | none => it.valid = false
  | some key => it.valid = true ∧ it.key = some key

end SkipListIter

namespace SkipList

variable {cmp : Compare}

/-! ### The invariant -/

/-- The link of a node at a level, null where the node has none. -/
def link (s : SkipList cmp) (x level : ℕ) : Option ℕ := (s.nextAt x level).join

/-- The height of a node. -/
def heightOf (s : SkipList cmp) (x : ℕ) : ℕ := (s.nodes[x]?).elim 0 fun node => node.next.length

/-- The key of a node. -/
def keyOf (s : SkipList cmp) (x : ℕ) : Bytes := (s.nodes[x]?).elim [] Node.key

variable {s : SkipList cmp} {x y level : ℕ}

theorem nextAt_eq (h : level < s.heightOf x) : s.nextAt x level = some (s.link x level) := by
  rw [heightOf] at h
  rw [link, nextAt]
  rcases hnode : s.nodes[x]? with _ | node
  · rw [hnode] at h
    cases h
  · rw [hnode] at h
    have hlev : level < node.next.length := h
    simp [getElem?_eq_getElem hlev]

theorem lt_heightOf_of_nextAt {pointer : Option ℕ} (h : s.nextAt x level = some pointer) :
    level < s.heightOf x := by
  rw [nextAt] at h
  rw [heightOf]
  rcases hnode : s.nodes[x]? with _ | node
  · rw [hnode] at h
    cases h
  · rw [hnode] at h
    exact (List.getElem?_eq_some_iff.mp h).1

theorem getElem?_nodes (h : x < s.nodes.length) :
    ∃ node, s.nodes[x]? = some node ∧ node.key = s.keyOf x := by
  refine ⟨s.nodes[x], getElem?_eq_getElem h, ?_⟩
  rw [keyOf, getElem?_eq_getElem h]
  rfl

/-- **The invariant of a skip list**, with its nodes in the order of their keys. -/
structure Holds (s : SkipList cmp) (order : List ℕ) : Prop where
  linked : Linked s.heightOf s.link (head :: order)
  sorted : order.Pairwise fun x y => cmp (s.keyOf x) (s.keyOf y) = .lt
  nodup : (head :: order).Nodup
  mem_iff : ∀ x, x ∈ head :: order ↔ x < s.nodes.length
  heightOf_head : s.heightOf head = maxHeight
  heightOf_pos : ∀ x ∈ order, 0 < s.heightOf x
  heightOf_le : ∀ x ∈ order, s.heightOf x ≤ s.height
  height_pos : 0 < s.height
  height_le : s.height ≤ maxHeight

/-- The empty list. -/
theorem holds_new : Holds ({} : SkipList cmp) [] where
  linked := ⟨fun level hlev => by
    have hlev : level < maxHeight := hlev
    simp [link, nextAt, head, Node.new, firstTaller, hlev], trivial⟩
  sorted := List.Pairwise.nil
  nodup := nodup_singleton _
  mem_iff x := by simp [head]
  heightOf_head := rfl
  heightOf_pos x hx := by cases hx
  heightOf_le x hx := by cases hx
  height_pos := Nat.one_pos
  height_le := (by decide : 1 ≤ maxHeight)

variable {order : List ℕ}

/-- What is behind a node of a list is not its first node. -/
private theorem mem_of_cons_eq_append {before rest : List ℕ}
    (hs : head :: order = before ++ x :: rest) (hy : y ∈ rest) : y ∈ order := by
  cases before with
  | nil =>
    obtain ⟨-, rfl⟩ := List.cons.inj hs
    exact hy
  | cons z before =>
    obtain ⟨-, rfl⟩ := List.cons.inj hs
    simp [hy]

namespace Holds

variable {order front back : List ℕ} {goOn : Bytes → Bool}

/-- All nodes are on the lowest level. -/
theorem firstTaller_zero (h : Holds s order) {nodes : List ℕ} (hnodes : nodes ⊆ order) :
    firstTaller s.heightOf 0 nodes = nodes.head? := by
  rw [firstTaller, ← head?_filter, filter_eq_self.mpr]
  exact fun y hy => decide_eq_true (h.heightOf_pos y (hnodes hy))

/-- The length of the order is one less than the number of nodes. -/
theorem length_lt_rounds (h : Holds s order) : order.length + (s.height - 1) < s.rounds := by
  have hperm : (head :: order).length ≤ (List.range s.nodes.length).length :=
    (h.nodup.subperm fun x hx => mem_range.mpr ((h.mem_iff x).mp hx)).length_le
  have hpos := h.height_pos
  rw [length_cons, length_range] at hperm
  rw [rounds]
  omega

theorem forward_eq (h : Holds s order) (hy : y ∈ order) :
    s.forward goOn (some y) = some (if goOn (s.keyOf y) then some y else none) := by
  obtain ⟨node, hnode, hkey⟩ := getElem?_nodes ((h.mem_iff y).mp (mem_cons_of_mem _ hy))
  rw [forward, hnode, ← hkey]
  rfl

/-- A search does not go on to the back part. -/
theorem forward_firstTaller (h : Holds s (front ++ back))
    (hback : ∀ x ∈ back, goOn (s.keyOf x) = false) :
    s.forward goOn (firstTaller s.heightOf level back) = some none := by
  rcases hnext : firstTaller s.heightOf level back with _ | z
  · rfl
  · have hz := (mem_of_firstTaller hnext).1
    rw [h.forward_eq (mem_append_right _ hz), hback z hz]
    rfl

/-- The loop of the searches, at a node of the front part. What is left is the distance to the end
of the front part and the levels below. -/
theorem descend_eq (h : Holds s (front ++ back)) (hf : ∀ x ∈ front, goOn (s.keyOf x) = true)
    (hback : ∀ x ∈ back, goOn (s.keyOf x) = false) {rounds : ℕ} {before rest : List ℕ}
    {prev : List (Option ℕ)} (hs : head :: front = before ++ x :: rest)
    (hlev : level < s.heightOf x) (hr : rest.length + level < rounds)
    (hprev : level < prev.length) :
    ∃ last prev', s.descend goOn rounds x level prev = some (last, back.head?, prev') ∧
      (head :: front).getLast? = some last ∧ prev'.length = prev.length ∧
      (∀ i ≤ level, prev'[i]? = some (lastTaller s.heightOf i (head :: front))) ∧
      ∀ i, level < i → prev'[i]? = prev[i]? := by
  induction rounds generalizing x level before rest prev with
  | zero => exact absurd hr (Nat.not_lt_zero _)
  | succ rounds ih =>
    have hl : Linked s.heightOf s.link (before ++ x :: (rest ++ back)) := by
      have heq : head :: (front ++ back) = before ++ x :: (rest ++ back) := by
        rw [← cons_append, hs, append_assoc, cons_append]
      rw [← heq]
      exact h.linked
    have hlink : s.nextAt x level = some (firstTaller s.heightOf level (rest ++ back)) := by
      rw [nextAt_eq hlev, hl.link_eq hlev]
    have hrestFront : ∀ y ∈ rest, y ∈ front := fun y hy => mem_of_cons_eq_append hs hy
    rw [descend, hlink, firstTaller_append]
    rcases hfst : firstTaller s.heightOf level rest with _ | y
    · -- No node of the front part is left on this level.
      have hshort := firstTaller_eq_none.mp hfst
      have hlast : lastTaller s.heightOf level (head :: front) = some x := by
        rw [hs, lastTaller_append, lastTaller_cons hlev, lastTaller_eq_none.mpr hshort]
        rfl
      simp only [Option.none_or, some_bind, h.forward_firstTaller hback]
      cases level with
      | zero =>
        have hempty : rest = [] := eq_nil_iff_forall_not_mem.mpr fun y hy =>
          absurd (h.heightOf_pos y (mem_append_left _ (hrestFront y hy)))
            (Nat.not_lt.mpr (hshort y hy))
        have hhead := h.firstTaller_zero (subset_append_right front back)
        refine ⟨x, prev.set 0 (some x), by rw [hhead]; rfl, ?_, length_set, fun i hi => ?_,
          fun i hi => getElem?_set_ne (Nat.ne_of_lt hi)⟩
        · rw [hs, hempty, getLast?_concat]
        · rw [Nat.le_zero.mp hi, hlast, getElem?_set_self hprev]
      | succ level =>
        obtain ⟨last, prev', hrun, hend, hlen, hmet, hkept⟩ :=
          @ih x level before rest (prev.set (level + 1) (some x)) hs
            (Nat.lt_of_succ_lt hlev) (by omega) (by rw [length_set]; omega)
        refine ⟨last, prev', hrun, hend, by rw [hlen, length_set], fun i hi => ?_, fun i hi => ?_⟩
        · rcases Nat.lt_or_eq_of_le hi with hi | rfl
          · exact hmet i (Nat.le_of_lt_succ hi)
          · rw [hkept _ (Nat.lt_succ_self level), hlast, getElem?_set_self hprev]
        · rw [hkept i (Nat.lt_of_succ_lt hi), getElem?_set_ne (Nat.ne_of_lt hi)]
    · -- The search goes on to a node of the front part.
      obtain ⟨hy, hlev'⟩ := mem_of_firstTaller hfst
      obtain ⟨-, skipped, rest', rfl, -⟩ := find?_eq_some_iff_append.mp hfst
      have hgo : s.forward goOn (some y) = some (some y) := by
        rw [h.forward_eq (mem_append_left _ (hrestFront y hy)), hf y (hrestFront y hy)]
        rfl
      simp only [Option.some_or, some_bind, hgo]
      refine @ih y level (before ++ x :: skipped) rest' prev ?_ hlev' ?_ hprev
      · rw [hs, append_assoc, cons_append]
      · simp only [length_append, length_cons] at hr
        omega

/-- **What a search ends with**, when it goes on exactly over the keys of a front part. -/
theorem search_eq (h : Holds s (front ++ back)) (hf : ∀ x ∈ front, goOn (s.keyOf x) = true)
    (hback : ∀ x ∈ back, goOn (s.keyOf x) = false) :
    ∃ last prev, s.search goOn = some (last, back.head?, prev) ∧
      (head :: front).getLast? = some last ∧ prev.length = maxHeight ∧
      ∀ i < s.height, prev[i]? = some (lastTaller s.heightOf i (head :: front)) := by
  have hpos := h.height_pos
  have hle := h.height_le
  have hr := h.length_lt_rounds
  rw [length_append] at hr
  obtain ⟨last, prev, hrun, hlast, hlen, hmet, -⟩ :=
    @descend_eq cmp s head (s.height - 1) front back goOn h hf hback s.rounds [] front
      (List.replicate maxHeight none) rfl (by rw [h.heightOf_head]; omega) (by omega)
      (by rw [length_replicate]; omega)
  rw [length_replicate] at hlen
  exact ⟨last, prev, hrun, hlast, hlen, fun i hi => hmet i (by omega)⟩

/-- The search for a target when the keys below it are a front part. -/
theorem findGreaterOrEqual_split {target : Bytes} (h : Holds s (front ++ back))
    (hf : ∀ x ∈ front, cmp (s.keyOf x) target = .lt)
    (hback : ∀ x ∈ back, cmp (s.keyOf x) target ≠ .lt) :
    ∃ prev, s.findGreaterOrEqual target = some (back.head?, prev) ∧ prev.length = maxHeight ∧
      ∀ i < s.height, prev[i]? = some (lastTaller s.heightOf i (head :: front)) := by
  obtain ⟨last, prev, hsearch, -, hlen, hmet⟩ := @search_eq cmp s front back
    (fun k => cmp k target == .lt) h (fun x hx => by simp [hf x hx])
    fun x hx => by simp [hback x hx]
  exact ⟨prev, by rw [findGreaterOrEqual, hsearch]; rfl, hlen, hmet⟩

/-- The keys below a target are a front part. -/
theorem exists_split [Std.TransCmp cmp] (h : Holds s order) (target : Bytes) :
    ∃ front back, order = front ++ back ∧ (∀ x ∈ front, cmp (s.keyOf x) target = .lt) ∧
      ∀ x ∈ back, cmp (s.keyOf x) target ≠ .lt := by
  have hsort := h.sorted
  clear h
  induction order with
  | nil => exact ⟨[], [], rfl, forall_mem_nil _, forall_mem_nil _⟩
  | cons x order ih =>
    obtain ⟨hx, hsort⟩ := pairwise_cons.mp hsort
    by_cases hlt : cmp (s.keyOf x) target = .lt
    · obtain ⟨front, back, rfl, hf, hback⟩ := ih hsort
      exact ⟨x :: front, back, rfl, forall_mem_cons.mpr ⟨hlt, hf⟩, hback⟩
    · refine ⟨[], x :: order, rfl, forall_mem_nil _,
        forall_mem_cons.mpr ⟨hlt, fun y hy hylt => hlt ?_⟩⟩
      exact Std.TransCmp.lt_trans (hx y hy) hylt

end Holds

/-! ### New links -/

/-- The same nodes, possibly with other links. -/
structure Relinked (s s' : SkipList cmp) : Prop where
  height_eq : s'.height = s.height
  length_eq : s'.nodes.length = s.nodes.length
  keyOf_eq : ∀ x, s'.keyOf x = s.keyOf x
  heightOf_eq : ∀ x, s'.heightOf x = s.heightOf x

theorem Relinked.refl (s : SkipList cmp) : Relinked s s := ⟨rfl, rfl, fun _ => rfl, fun _ => rfl⟩

theorem Relinked.trans {s₁ s₂ s₃ : SkipList cmp} (h : Relinked s₁ s₂) (h' : Relinked s₂ s₃) :
    Relinked s₁ s₃ where
  height_eq := h'.height_eq.trans h.height_eq
  length_eq := h'.length_eq.trans h.length_eq
  keyOf_eq x := (h'.keyOf_eq x).trans (h.keyOf_eq x)
  heightOf_eq x := (h'.heightOf_eq x).trans (h.heightOf_eq x)

/-- One link is set. -/
theorem exists_setNext (h : level < s.heightOf x) (pointer : Option ℕ) :
    ∃ s', s.setNext x level pointer = some s' ∧ Relinked s s' ∧
      ∀ y i, s'.link y i = if y = x ∧ i = level then pointer else s.link y i := by
  have hx : x < s.nodes.length := by
    by_contra hx
    rw [heightOf, getElem?_eq_none (Nat.not_lt.mp hx)] at h
    cases h
  have hnode : s.nodes[x]? = some s.nodes[x] := getElem?_eq_getElem hx
  have hlev : level < s.nodes[x].next.length := by
    rw [heightOf, hnode] at h
    exact h
  refine ⟨{ s with nodes := s.nodes.set x { s.nodes[x] with
    next := s.nodes[x].next.set level pointer } }, ?_, ⟨rfl, length_set, fun y => ?_,
      fun y => ?_⟩, fun y i => ?_⟩
  · simp [setNext, hnode, hlev, guard]
  · by_cases hy : y = x
    · subst hy
      simp [keyOf, getElem?_set_self hx, hnode]
    · simp [keyOf, getElem?_set_ne (Ne.symm hy)]
  · by_cases hy : y = x
    · subst hy
      simp [heightOf, getElem?_set_self hx, hnode]
    · simp [heightOf, getElem?_set_ne (Ne.symm hy)]
  · by_cases hy : y = x
    · subst hy
      by_cases hi : i = level
      · subst hi
        simp [link, nextAt, getElem?_set_self hx, getElem?_set_self hlev]
      · simp [link, nextAt, getElem?_set_self hx, getElem?_set_ne (Ne.symm hi), hnode, hi]
    · simp [link, nextAt, getElem?_set_ne (Ne.symm hy), hy]

/-- **The loop that links a node in.** At every level the node takes over the link of its
predecessor, which is then set to the node. -/
theorem exists_foldlM_linkLevel {prev : List (Option ℕ)} {node count : ℕ} {pred : ℕ → ℕ}
    (hprev : ∀ i < count, prev[i]? = some (some (pred i)))
    (hpred : ∀ i < count, pred i ≠ node ∧ i < s.heightOf (pred i))
    (hnode : count ≤ s.heightOf node) :
    ∃ s', (List.range count).foldlM (linkLevel prev node) s = some s' ∧ Relinked s s' ∧
      ∀ y i, s'.link y i =
        if i < count ∧ y = node then s.link (pred i) i
        else if i < count ∧ y = pred i then some node else s.link y i := by
  induction count with
  | zero => exact ⟨s, rfl, Relinked.refl s, fun y i => by simp⟩
  | succ count ih =>
    obtain ⟨s₁, hrun, hsame, hlink⟩ := ih (fun i hi => hprev i (Nat.lt_succ_of_lt hi))
      (fun i hi => hpred i (Nat.lt_succ_of_lt hi)) (Nat.le_of_succ_le hnode)
    obtain ⟨hne, hheight⟩ := hpred count (Nat.lt_succ_self count)
    have hold : s₁.nextAt (pred count) count = some (s.link (pred count) count) := by
      rw [nextAt_eq (by rwa [hsame.heightOf_eq]), hlink]
      simp
    obtain ⟨s₂, hset, hsame₂, hlink₂⟩ := @exists_setNext cmp s₁ node count
      (by rw [hsame.heightOf_eq]; omega) (s.link (pred count) count)
    obtain ⟨s₃, hset', hsame₃, hlink₃⟩ := @exists_setNext cmp s₂ (pred count) count
      (by rwa [hsame₂.heightOf_eq, hsame.heightOf_eq]) (some node)
    refine ⟨s₃, ?_, (hsame.trans hsame₂).trans hsame₃, fun y i => ?_⟩
    · rw [range_succ, foldlM_append, hrun]
      simp [linkLevel, hprev count (Nat.lt_succ_self count), hold, hset, hset']
    · rw [hlink₃, hlink₂, hlink]
      rcases Nat.lt_trichotomy i count with hi | rfl | hi
      · simp [hi, Nat.ne_of_lt hi, Nat.lt_succ_of_lt hi]
      · by_cases hy : y = node
        · subst hy
          simp [Ne.symm hne]
        · simp [hy]
      · simp [Nat.not_lt_of_gt hi, Nat.ne_of_gt hi, Nat.not_lt.mpr (Nat.succ_le_of_lt hi)]

/-! ### Insertion keeps the invariant -/

section Insert

variable {key : Bytes} {height : ℕ}

theorem getElem?_allocateNode (h : x ≠ s.nodes.length) :
    (s.allocateNode key height).nodes[x]? = s.nodes[x]? := by
  rcases Nat.lt_or_gt_of_ne h with hx | hx
  · exact getElem?_append_left hx
  · rw [getElem?_eq_none (Nat.le_of_lt hx), getElem?_eq_none]
    simpa [allocateNode] using Nat.succ_le_of_lt hx

theorem getElem?_allocateNode_self :
    (s.allocateNode key height).nodes[s.nodes.length]? = some (Node.new key height) := by
  simp [allocateNode]

theorem heightOf_allocateNode (h : x ≠ s.nodes.length) :
    (s.allocateNode key height).heightOf x = s.heightOf x := by
  rw [heightOf, heightOf, getElem?_allocateNode h]

theorem heightOf_allocateNode_self :
    (s.allocateNode key height).heightOf s.nodes.length = height := by
  rw [heightOf, getElem?_allocateNode_self]
  simp [Node.new]

theorem keyOf_allocateNode (h : x ≠ s.nodes.length) :
    (s.allocateNode key height).keyOf x = s.keyOf x := by
  rw [keyOf, keyOf, getElem?_allocateNode h]

theorem keyOf_allocateNode_self : (s.allocateNode key height).keyOf s.nodes.length = key := by
  rw [keyOf, getElem?_allocateNode_self]
  rfl

theorem link_allocateNode (h : x ≠ s.nodes.length) :
    (s.allocateNode key height).link x level = s.link x level := by
  rw [link, link, nextAt, nextAt, getElem?_allocateNode h]

/-- What an insertion does to the nodes, apart from their links: a node comes in at the end of the
arena. -/
structure Grown (s s' : SkipList cmp) (key : Bytes) (height : ℕ) : Prop where
  height_eq : s'.height = max s.height height
  length_eq : s'.nodes.length = s.nodes.length + 1
  keyOf_new : s'.keyOf s.nodes.length = key
  heightOf_new : s'.heightOf s.nodes.length = height
  keyOf_eq : ∀ {x}, x ≠ s.nodes.length → s'.keyOf x = s.keyOf x
  heightOf_eq : ∀ {x}, x ≠ s.nodes.length → s'.heightOf x = s.heightOf x

variable {s' : SkipList cmp}

theorem Relinked.grown (h : Relinked (s.allocateNode key height) s') : Grown s s' key height where
  height_eq := h.height_eq
  length_eq := by rw [h.length_eq, allocateNode, length_append, length_singleton]
  keyOf_new := by rw [h.keyOf_eq, keyOf_allocateNode_self]
  heightOf_new := by rw [h.heightOf_eq, heightOf_allocateNode_self]
  keyOf_eq hx := by rw [h.keyOf_eq, keyOf_allocateNode hx]
  heightOf_eq hx := by rw [h.heightOf_eq, heightOf_allocateNode hx]

/-- The head takes the place of the predecessors at the levels that are new. -/
theorem getElem?_foldl_set {prev : List (Option ℕ)} (hprev : prev.length = maxHeight)
    (hheight : height ≤ maxHeight) {start i : ℕ} (hi : i < height) :
    ((List.range' start (height - start)).foldl (·.set · (some head)) prev)[i]? =
      if start ≤ i then some (some head) else prev[i]? := by
  have hgeneral : ∀ count, start + count ≤ maxHeight →
      ((List.range' start count).foldl (·.set · (some head)) prev).length = maxHeight ∧
      ((List.range' start count).foldl (·.set · (some head)) prev)[i]? =
        if start ≤ i ∧ i < start + count then some (some head) else prev[i]? := by
    intro count
    induction count with
    | zero => exact fun _ => ⟨hprev, by simp⟩
    | succ count ih =>
      intro hcnt
      obtain ⟨hlen, hget⟩ := ih (by omega)
      rw [range'_concat, foldl_append, Nat.one_mul]
      refine ⟨by rw [← hlen]; exact length_set, ?_⟩
      rw [foldl_cons, foldl_nil, getElem?_set, hget, hlen]
      by_cases heq : start + count = i
      · simp only [heq, if_true]
        rw [if_pos (by omega), if_pos (by omega)]
      · rw [if_neg heq]
        split_ifs <;> first | rfl | omega
  by_cases hstart : start ≤ height
  · rw [(hgeneral (height - start) (by omega)).2]
    split_ifs <;> first | rfl | omega
  · rw [Nat.sub_eq_zero_of_le (by omega), range'_zero, foldl_nil, if_neg (by omega)]

variable {front back : List ℕ}

/-- A new node has a place of its own. -/
theorem Holds.ne_length (h : Holds s order) (hx : x ∈ head :: order) :
    x ≠ s.nodes.length :=
  Nat.ne_of_lt ((h.mem_iff x).mp hx)

section

variable (h : Holds s (front ++ back))
include h

/-- The search of an insertion finds the predecessors at all levels of the new node; where the list
has not been so tall before, the predecessor is the head. -/
theorem Holds.exists_pred (hf : ∀ x ∈ front, cmp (s.keyOf x) key = .lt)
    (hback : ∀ x ∈ back, cmp (s.keyOf x) key = .gt) (hle : height ≤ maxHeight) :
    ∃ (prev : List (Option ℕ)) (pred : ℕ → ℕ), s.findGreaterOrEqual key = some (back.head?, prev) ∧
      ∀ i < height, lastTaller s.heightOf i (head :: front) = some (pred i) ∧
        ((List.range' s.height (height - s.height)).foldl (·.set · (some head)) prev)[i]? =
          some (some (pred i)) := by
  obtain ⟨prev, hfind, hlen, hmet⟩ := h.findGreaterOrEqual_split hf fun x hx => by simp [hback x hx]
  have hpred : ∀ i < height, ∃ p, lastTaller s.heightOf i (head :: front) = some p ∧
      ((List.range' s.height (height - s.height)).foldl (·.set · (some head)) prev)[i]? =
        some (some p) := by
    intro i hi
    have hhead : i < s.heightOf head := by
      rw [h.heightOf_head]
      omega
    rw [getElem?_foldl_set hlen hle hi]
    split_ifs with hheight
    · have hshort : lastTaller s.heightOf i front = none := lastTaller_eq_none.mpr fun x hx =>
        (h.heightOf_le x (mem_append_left _ hx)).trans hheight
      exact ⟨head, by rw [lastTaller_cons hhead, hshort]; rfl, rfl⟩
    · rw [hmet i (Nat.not_le.mp hheight), lastTaller_cons hhead]
      rcases lastTaller s.heightOf i front with _ | p
      · exact ⟨head, rfl, rfl⟩
      · exact ⟨p, rfl, rfl⟩
  choose! pred hpred using hpred
  exact ⟨prev, pred, hfind, hpred⟩

/-- The links that the loop of an insertion leaves are those of the list with the new node. -/
theorem Holds.linked_spliced {pred : ℕ → ℕ}
    (hpred : ∀ i < height, lastTaller s.heightOf i (head :: front) = some (pred i))
    (hsame : Relinked (s.allocateNode key height) s') (hlink : ∀ y i, s'.link y i =
      if i < height ∧ y = s.nodes.length then (s.allocateNode key height).link (pred i) i
      else if i < height ∧ y = pred i then some s.nodes.length
      else (s.allocateNode key height).link y i) :
    Linked s'.heightOf s'.link (head :: (front ++ s.nodes.length :: back)) := by
  have hnew : ∀ x ∈ (head :: front) ++ back, x ≠ s.nodes.length := fun x hx => h.ne_length hx
  have hheight : ∀ x ∈ (head :: front) ++ back, s'.heightOf x = s.heightOf x := fun x hx =>
    hsame.grown.heightOf_eq (hnew x hx)
  have hheightNew := hsame.grown.heightOf_new
  have hbase : Linked s'.heightOf (s.allocateNode key height).link ((head :: front) ++ back) :=
    h.linked.congr hheight fun x hx level _ => link_allocateNode (hnew x hx)
  have hlast : ∀ i < height, lastTaller s'.heightOf i (head :: front) = some (pred i) :=
    fun i hi => by
      rw [lastTaller_congr fun x hx => hheight x (mem_append_left _ hx), hpred i hi]
  have hne : ∀ i < height, pred i ≠ s.nodes.length := fun i hi =>
    hnew (pred i) (mem_append_left _ (mem_of_lastTaller (hlast i hi)).1)
  refine hbase.splice h.nodup (fun i hi => ?_) (fun i hi x hx => ?_) fun x hx i hother => ?_
  · rw [hheightNew] at hi
    rw [hlink, if_pos ⟨hi, rfl⟩, hbase.link_lastTaller (hlast i hi)]
  · rw [hheightNew] at hi
    obtain rfl : pred i = x := Option.some.inj ((hlast i hi).symm.trans hx)
    rw [hlink, if_neg fun hnode => hne i hi hnode.2, if_pos ⟨hi, rfl⟩]
  · rw [hheightNew] at hother
    rw [hlink, if_neg fun hnode => hnew x hx hnode.2, if_neg]
    rintro ⟨hi, rfl⟩
    exact hother hi (hlast i hi)

/-- The keys stay sorted with the new one between the smaller and the larger keys. -/
theorem Holds.sorted_grown [Std.OrientedCmp cmp] (hg : Grown s s' key height)
    (hf : ∀ x ∈ front, cmp (s.keyOf x) key = .lt) (hback : ∀ x ∈ back, cmp (s.keyOf x) key = .gt) :
    (front ++ s.nodes.length :: back).Pairwise fun x y => cmp (s'.keyOf x) (s'.keyOf y) = .lt := by
  have hkeyFront : ∀ x ∈ front, s'.keyOf x = s.keyOf x := fun x hx =>
    hg.keyOf_eq (h.ne_length (mem_cons_of_mem _ (mem_append_left _ hx)))
  have hkeyBack : ∀ x ∈ back, s'.keyOf x = s.keyOf x := fun x hx =>
    hg.keyOf_eq (h.ne_length (mem_cons_of_mem _ (mem_append_right _ hx)))
  obtain ⟨hsortedFront, hsortedBack, hbetween⟩ := pairwise_append.mp h.sorted
  refine pairwise_append.mpr ⟨hsortedFront.imp_of_mem fun {x y} hx hy hlt => ?_,
    pairwise_cons.mpr ⟨fun y hy => ?_, hsortedBack.imp_of_mem fun {x y} hx hy hlt => ?_⟩,
    fun x hx => forall_mem_cons.mpr ⟨?_, fun y hy => ?_⟩⟩
  · rwa [hkeyFront x hx, hkeyFront y hy]
  · rw [hg.keyOf_new, hkeyBack y hy]
    exact Std.OrientedCmp.lt_of_gt (hback y hy)
  · rwa [hkeyBack x hx, hkeyBack y hy]
  · rw [hg.keyOf_new, hkeyFront x hx]
    exact hf x hx
  · rw [hkeyFront x hx, hkeyBack y hy]
    exact hbetween x hx y hy

/-- The invariant of a list with a new node, from its links and the order of its keys. -/
theorem Holds.of_grown (hg : Grown s s' key height)
    (hl : Linked s'.heightOf s'.link (head :: (front ++ s.nodes.length :: back)))
    (hsort : (front ++ s.nodes.length :: back).Pairwise
      fun x y => cmp (s'.keyOf x) (s'.keyOf y) = .lt) (hpos : 0 < height)
    (hle : height ≤ maxHeight) :
    Holds s' (front ++ s.nodes.length :: back) := by
  have hperm : (head :: (front ++ s.nodes.length :: back)).Perm
      (s.nodes.length :: head :: (front ++ back)) :=
    (perm_middle.cons head).trans (List.Perm.swap _ _ _)
  have hheight : ∀ x ∈ front ++ s.nodes.length :: back,
      s'.heightOf x = height ∨ x ∈ front ++ back ∧ s'.heightOf x = s.heightOf x := by
    intro x hx
    rcases mem_cons.mp (perm_middle.mem_iff.mp hx) with rfl | hx
    · exact .inl hg.heightOf_new
    · exact .inr ⟨hx, hg.heightOf_eq (h.ne_length (mem_cons_of_mem _ hx))⟩
  exact
    { linked := hl
      sorted := hsort
      nodup := hperm.nodup_iff.mpr (nodup_cons.mpr ⟨fun hmem => h.ne_length hmem rfl, h.nodup⟩)
      mem_iff := fun x => by
        rw [hperm.mem_iff, mem_cons, h.mem_iff, hg.length_eq]
        omega
      heightOf_head := by
        rw [hg.heightOf_eq (h.ne_length mem_cons_self), h.heightOf_head]
      heightOf_pos := fun x hx => by
        rcases hheight x hx with heq | ⟨hx, heq⟩
        · rwa [heq]
        · rw [heq]
          exact h.heightOf_pos x hx
      heightOf_le := fun x hx => by
        rw [hg.height_eq]
        rcases hheight x hx with heq | ⟨hx, heq⟩
        · rw [heq]
          exact Nat.le_max_right _ _
        · rw [heq]
          exact (h.heightOf_le x hx).trans (Nat.le_max_left _ _)
      height_pos := by
        rw [hg.height_eq]
        exact Nat.lt_of_lt_of_le h.height_pos (Nat.le_max_left _ _)
      height_le := by
        rw [hg.height_eq]
        exact Nat.max_le.mpr ⟨h.height_le, hle⟩ }

/-- **An insertion keeps the invariant.** The new node comes between the smaller and the larger
keys. -/
theorem Holds.exists_insertWithHeight (hf : ∀ x ∈ front, cmp (s.keyOf x) key = .lt)
    (hback : ∀ x ∈ back, cmp (s.keyOf x) key = .gt) [Std.OrientedCmp cmp] (hpos : 0 < height)
    (hle : height ≤ maxHeight) :
    ∃ s', s.insertWithHeight key height = some s' ∧ Holds s' (front ++ s.nodes.length :: back) ∧
      Grown s s' key height := by
  obtain ⟨prev, pred, hfind, hpred⟩ := h.exists_pred hf hback hle
  have hmem : ∀ i < height, pred i ≠ s.nodes.length ∧ i < s.heightOf (pred i) := by
    intro i hi
    obtain ⟨hmem, htaller⟩ := mem_of_lastTaller (hpred i hi).1
    exact ⟨h.ne_length (mem_append_left back hmem), htaller⟩
  obtain ⟨s', hrun, hsame, hlink⟩ := @exists_foldlM_linkLevel cmp (s.allocateNode key height) _
    s.nodes.length height pred (fun i hi => (hpred i hi).2)
    (fun i hi => ⟨(hmem i hi).1, by rw [heightOf_allocateNode (hmem i hi).1]; exact (hmem i hi).2⟩)
    (by rw [heightOf_allocateNode_self])
  have hl := h.linked_spliced (fun i hi => (hpred i hi).1) hsame hlink
  have hsort := h.sorted_grown hsame.grown hf hback
  refine ⟨s', ?_, h.of_grown hsame.grown hl hsort hpos hle, hsame.grown⟩
  rw [insertWithHeight, hfind]
  rcases hhead : back.head? with _ | n
  · exact hrun
  · have hn : n ∈ back := mem_of_head? hhead
    obtain ⟨node, hnode, hnodeKey⟩ := getElem?_nodes ((h.mem_iff n).mp
      (mem_cons_of_mem _ (mem_append_right _ hn)))
    have hne : cmp node.key key ≠ .eq := by rw [hnodeKey, hback n hn]; decide
    simpa [hnode, guard, hne] using hrun

end

end Insert

/-! ### Reads -/

namespace Holds

variable {order : List ℕ}

/-- A search for a target stops at the first key that is not below it. -/
theorem findGreaterOrEqual_eq [Std.TransCmp cmp] (h : Holds s order) (target : Bytes) :
    ∃ prev, s.findGreaterOrEqual target =
      some (order.find? fun x => (cmp target (s.keyOf x)).isLE, prev) := by
  obtain ⟨front, back, rfl, hf, hback⟩ := h.exists_split target
  obtain ⟨prev, hfind, -⟩ := h.findGreaterOrEqual_split hf hback
  refine ⟨prev, ?_⟩
  have hnone : front.find? (fun x => (cmp target (s.keyOf x)).isLE) = none := by
    refine find?_eq_none.mpr fun x hx hle => ?_
    exact Ordering.isLE_iff_ne_gt.mp hle (Std.OrientedCmp.gt_of_lt (hf x hx))
  have hsome : back.find? (fun x => (cmp target (s.keyOf x)).isLE) = back.head? := by
    rw [← head?_filter, filter_eq_self.mpr fun x hx => ?_]
    rw [Ordering.isLE_iff_ne_gt, Std.OrientedCmp.gt_iff_lt]
    exact hback x hx
  rw [hfind, find?_append, hnone, hsome]
  rfl

/-- The next node on the lowest level. -/
theorem nextAt_zero_eq (h : Holds s order) {before rest : List ℕ}
    (hs : head :: order = before ++ x :: rest) : s.nextAt x 0 = some rest.head? := by
  have hx : 0 < s.heightOf x := by
    have hmem : x ∈ head :: order := by
      rw [hs]
      exact mem_append_right _ mem_cons_self
    rcases mem_cons.mp hmem with rfl | hmem
    · rw [h.heightOf_head]
      decide
    · exact h.heightOf_pos x hmem
  have hl := h.linked
  rw [hs] at hl
  rw [nextAt_eq hx, hl.link_eq hx, h.firstTaller_zero fun y hy => mem_of_cons_eq_append hs hy]

theorem findLast_eq (h : Holds s order) :
    ∃ last, s.findLast = some last ∧ (head :: order).getLast? = some last := by
  rw [← append_nil order] at h
  obtain ⟨last, prev, hsearch, hlast, -⟩ := @search_eq cmp s order [] (fun _ => true) h
    (fun _ _ => rfl) (forall_mem_nil _)
  exact ⟨last, by rw [findLast, hsearch]; rfl, hlast⟩

/-- The node in front of the key of a node. -/
theorem findLessThan_eq [Std.TransCmp cmp] {front rest : List ℕ}
    (h : Holds s (front ++ x :: rest)) :
    ∃ last, s.findLessThan (s.keyOf x) = some last ∧ (head :: front).getLast? = some last := by
  obtain ⟨-, hrest, hf⟩ := pairwise_append.mp h.sorted
  obtain ⟨last, prev, hsearch, hlast, -⟩ := @search_eq cmp s front (x :: rest)
    (fun k => cmp k (s.keyOf x) == .lt) h
    (fun y hy => by simp [hf y hy x mem_cons_self])
    (forall_mem_cons.mpr ⟨by simp [Std.ReflCmp.compare_self],
      fun y hy => by simp [Std.OrientedCmp.gt_of_lt ((pairwise_cons.mp hrest).1 y hy)]⟩)
  exact ⟨last, by rw [findLessThan, hsearch]; rfl, hlast⟩

end Holds

/-- A node that is the head or the last one of a list of other nodes. -/
theorem notHead_getLast {front : List ℕ} {last : ℕ} (hnodup : (head :: front).Nodup)
    (hlast : (head :: front).getLast? = some last) :
    SkipListIter.notHead last = front.getLast? := by
  rw [getLast?_cons] at hlast
  rcases hf : front.getLast? with _ | y
  · rw [hf] at hlast
    obtain rfl : head = last := Option.some.inj hlast
    rfl
  · rw [hf] at hlast
    obtain rfl : y = last := Option.some.inj hlast
    refine if_neg ?_
    rintro rfl
    exact (nodup_cons.mp hnodup).1 (mem_of_getLast? hf)

section Iter

variable {order : List ℕ} {node : Option ℕ} {i : ℕ}

section

variable (h : Holds s order)
include h

theorem Holds.seekToFirst_eq :
    ({ list := s, node } : SkipListIter cmp).seekToFirst =
      some { list := s, node := order.head? } := by
  have hs : head :: order = [] ++ head :: order := rfl
  simp [SkipListIter.seekToFirst, h.nextAt_zero_eq hs]

theorem Holds.seekToLast_eq :
    ({ list := s, node } : SkipListIter cmp).seekToLast =
      some { list := s, node := order.getLast? } := by
  obtain ⟨last, hfind, hlast⟩ := h.findLast_eq
  simp [SkipListIter.seekToLast, hfind, notHead_getLast h.nodup hlast]

theorem Holds.seek_eq [Std.TransCmp cmp] (target : Bytes) :
    ({ list := s, node } : SkipListIter cmp).seek target =
      some { list := s, node := order.find? fun x => (cmp target (s.keyOf x)).isLE } := by
  obtain ⟨prev, hfind⟩ := h.findGreaterOrEqual_eq target
  simp [SkipListIter.seek, hfind]

omit h in
private theorem exists_front (hx : order[i]? = some x) :
    ∃ front rest, order = front ++ x :: rest ∧ front.length = i := by
  obtain ⟨hi, rfl⟩ := List.getElem?_eq_some_iff.mp hx
  refine ⟨order.take i, order.drop (i + 1), ?_, length_take_of_le (Nat.le_of_lt hi)⟩
  rw [getElem_cons_drop, take_append_drop]

theorem Holds.next_eq (hx : order[i]? = some x) :
    ({ list := s, node := some x } : SkipListIter cmp).next =
      some { list := s, node := order[i + 1]? } := by
  obtain ⟨front, rest, rfl, rfl⟩ := exists_front hx
  have hs : head :: (front ++ x :: rest) = (head :: front) ++ x :: rest := rfl
  have hnext : (front ++ x :: rest)[front.length + 1]? = rest.head? := by
    simp [getElem?_append_right, head?_eq_getElem?]
  simp [SkipListIter.next, h.nextAt_zero_eq hs, hnext]

theorem Holds.key_eq (hx : x ∈ order) :
    ({ list := s, node := some x } : SkipListIter cmp).key = some (s.keyOf x) := by
  obtain ⟨node, hnode, hkey⟩ := getElem?_nodes ((h.mem_iff x).mp (mem_cons_of_mem _ hx))
  simp [SkipListIter.key, hnode, hkey]

theorem Holds.prev_eq [Std.TransCmp cmp] (hx : order[i]? = some x) :
    ({ list := s, node := some x } : SkipListIter cmp).prev =
      some { list := s, node := if 0 < i then order[i - 1]? else none } := by
  have hkey := h.key_eq (mem_of_getElem? hx)
  obtain ⟨front, rest, rfl, rfl⟩ := exists_front hx
  obtain ⟨last, hfind, hlast⟩ := h.findLessThan_eq
  have hnodup : (head :: front).Nodup := h.nodup.sublist
    (List.Sublist.cons_cons head (sublist_append_left front _))
  have hprev : front.getLast? =
      if 0 < front.length then (front ++ x :: rest)[front.length - 1]? else none := by
    rw [getLast?_eq_getElem?]
    split_ifs with hpos
    · rw [getElem?_append_left (by omega)]
    · rw [getElem?_eq_none (by omega)]
  rw [SkipListIter.prev, hkey]
  simp only [some_bind, hfind, Option.pure_def, notHead_getLast hnodup hlast, hprev]

/-- **The iterator of a skip list is a cursor over its keys.** -/
theorem Holds.lawful [Std.TransCmp cmp] :
    Cursor.Lawful SkipListIter.step SkipListIter.Shows (fun target key => (cmp target key).isLE)
      (order.map s.keyOf) { list := s } := by
  refine Cursor.lawful_of_simulates
    (fun it p => it = { list := s, node := p.bind fun i => order[i]? }) ?_ ?_ rfl
  · rintro _ p rfl
    cases p with
    | none => rfl
    | some i =>
      rw [Cursor.entryAt, Option.bind_some, Option.bind_some, getElem?_map]
      rcases hx : order[i]? with _ | x
      · rfl
      · exact ⟨rfl, h.key_eq (mem_of_getElem? hx)⟩
  · rintro _ p call rfl hp hall
    cases call with
    | seekToFirst =>
      refine ⟨_, h.seekToFirst_eq, ?_⟩
      rw [Cursor.listStep, length_map, head?_eq_getElem?]
      split_ifs with hpos
      · rfl
      · rw [getElem?_eq_none (Nat.not_lt.mp hpos)]
        rfl
    | seekToLast =>
      refine ⟨_, h.seekToLast_eq, ?_⟩
      rw [Cursor.listStep, length_map, getLast?_eq_getElem?]
      split_ifs with hpos
      · rfl
      · rw [getElem?_eq_none (by omega)]
        rfl
    | seek target =>
      refine ⟨_, h.seek_eq target, ?_⟩
      rw [Cursor.listStep, findIdx?_map, find?_eq_bind_findIdx?_getElem?]
      rfl
    | next =>
      cases p with
      | none => cases hall
      | some i =>
        have hi : i < order.length := by simpa using hp i rfl
        refine ⟨_, ?_, rfl⟩
        rw [SkipListIter.step, Option.bind_some, getElem?_eq_getElem hi,
          h.next_eq (getElem?_eq_getElem hi), Cursor.listStep, length_map]
        split_ifs with hlast
        · rfl
        · rw [getElem?_eq_none (Nat.not_lt.mp hlast)]
          rfl
    | prev =>
      cases p with
      | none => cases hall
      | some i =>
        have hi : i < order.length := by simpa using hp i rfl
        refine ⟨_, ?_, rfl⟩
        rw [SkipListIter.step, Option.bind_some, getElem?_eq_getElem hi,
          h.prev_eq (getElem?_eq_getElem hi), Cursor.listStep]
        split_ifs <;> rfl

end

end Iter

/-! ### Runs -/

/-- Insertions one after the other, each with the height of its node. -/
def insertAll (s : SkipList cmp) (entries : List (Bytes × ℕ)) : Option (SkipList cmp) :=
  entries.foldlM (fun s e => s.insertWithHeight e.1 e.2) s

/-- The keys and heights of nodes. -/
def entriesOf (s : SkipList cmp) (order : List ℕ) : List (Bytes × ℕ) :=
  order.map fun x => (s.keyOf x, s.heightOf x)

/-- An insertion of a key that is not equal to one of the list. -/
theorem Holds.exists_insert [Std.TransCmp cmp] (h : Holds s order) {key : Bytes} {height : ℕ}
    (hkey : ∀ x ∈ order, cmp (s.keyOf x) key ≠ .eq) (hpos : 0 < height) (hle : height ≤ maxHeight) :
    ∃ s' order', s.insertWithHeight key height = some s' ∧ Holds s' order' ∧
      (s'.entriesOf order').Perm ((key, height) :: s.entriesOf order) := by
  obtain ⟨front, back, rfl, hf, hback⟩ := h.exists_split key
  have hgt : ∀ x ∈ back, cmp (s.keyOf x) key = .gt := by
    intro x hx
    have hlt := hback x hx
    have heq := hkey x (mem_append_right _ hx)
    rcases hord : cmp (s.keyOf x) key with _ | _ | _
    · exact absurd hord hlt
    · exact absurd hord heq
    · rfl
  obtain ⟨s', hrun, hh, hg⟩ := h.exists_insertWithHeight hf hgt hpos hle
  refine ⟨s', _, hrun, hh, ?_⟩
  have hsame : s'.entriesOf (front ++ back) = s.entriesOf (front ++ back) := by
    refine map_congr_left fun x hx => ?_
    have hne := h.ne_length (mem_cons_of_mem _ hx)
    rw [hg.keyOf_eq hne, hg.heightOf_eq hne]
  rw [← hsame, ← hg.keyOf_new, ← hg.heightOf_new]
  exact perm_middle.map _

/-- **Every run of insertions of different keys keeps the invariant.** `view` is what is said of a
node, and an insertion adds what is said of its own. -/
theorem exists_run {ε : Type*} {insertOne : SkipList cmp → ε → Option (SkipList cmp)}
    {view : SkipList cmp → ℕ → ε} {key : ε → Bytes} {items : List ε}
    (hview : ∀ s x, key (view s x) = s.keyOf x)
    (hinsert : ∀ e ∈ items, ∀ s order, Holds s order →
      (∀ x ∈ order, cmp (s.keyOf x) (key e) ≠ .eq) →
      ∃ s' order', insertOne s e = some s' ∧ Holds s' order' ∧
        (order'.map (view s')).Perm (e :: order.map (view s)))
    (hkeys : items.Pairwise fun a b => cmp (key a) (key b) ≠ .eq) :
    ∃ s order, items.foldlM insertOne {} = some s ∧ Holds s order ∧
      (order.map (view s)).Perm items := by
  induction items using List.reverseRecOn with
  | nil => exact ⟨{}, [], rfl, holds_new, List.Perm.refl []⟩
  | append_singleton items e ih =>
    obtain ⟨hinit, -, hlast⟩ := pairwise_append.mp hkeys
    obtain ⟨s, order, hrun, hh, hperm⟩ := ih (fun e he => hinsert e (mem_append_left _ he)) hinit
    have hnew : ∀ x ∈ order, cmp (s.keyOf x) (key e) ≠ .eq := by
      intro x hx
      rw [← hview s x]
      exact hlast _ (hperm.mem_iff.mp (mem_map_of_mem hx)) e mem_cons_self
    obtain ⟨s', order', hone, hh', hperm'⟩ :=
      hinsert e (mem_append_right _ mem_cons_self) s order hh hnew
    refine ⟨s', order', ?_, hh', hperm'.trans ?_⟩
    · rw [foldlM_append, hrun]
      simpa using hone
    · exact (hperm.cons e).trans (perm_append_singleton e items).symm

/-- A run with given heights. -/
theorem exists_insertAll [Std.TransCmp cmp] {entries : List (Bytes × ℕ)}
    (hheights : ∀ e ∈ entries, 0 < e.2 ∧ e.2 ≤ maxHeight)
    (hkeys : entries.Pairwise fun a b => cmp a.1 b.1 ≠ .eq) :
    ∃ s order, ({} : SkipList cmp).insertAll entries = some s ∧ Holds s order ∧
      (s.entriesOf order).Perm entries :=
  @exists_run cmp _ _ (fun s x => (s.keyOf x, s.heightOf x)) Prod.fst entries (fun _ _ => rfl)
    (fun e he _ _ hh hnew =>
      hh.exists_insert hnew (hheights e he).1 (hheights e he).2) hkeys

/-- A random height is a height. -/
theorem raiseHeight_bounds {height : ℕ} (hle : height ≤ maxHeight) (state : ℕ) :
    height ≤ (raiseHeight height state).1 ∧ (raiseHeight height state).1 ≤ maxHeight := by
  fun_induction raiseHeight height state with
  | case1 height _ hlt _ _ ih => exact ⟨(Nat.le_succ height).trans (ih hlt).1, (ih hlt).2⟩
  | case2 => exact ⟨le_rfl, hle⟩
  | case3 => exact ⟨le_rfl, hle⟩

/-- The generator of the heights does not enter into the invariant. -/
theorem Holds.withRngState (h : Holds s order) (rngState : ℕ) :
    Holds ({ s with rngState } : SkipList cmp) order :=
  { linked := h.linked
    sorted := h.sorted
    nodup := h.nodup
    mem_iff := h.mem_iff
    heightOf_head := h.heightOf_head
    heightOf_pos := h.heightOf_pos
    heightOf_le := h.heightOf_le
    height_pos := h.height_pos
    height_le := h.height_le }

/-- **A run of `insert`**, with the heights that its generator gives. -/
theorem exists_foldlM_insert [Std.TransCmp cmp] {keys : List Bytes}
    (hkeys : keys.Pairwise fun a b => cmp a b ≠ .eq) :
    ∃ s order, keys.foldlM insert ({} : SkipList cmp) = some s ∧ Holds s order ∧
      (order.map s.keyOf).Perm keys := by
  refine @exists_run cmp _ insert keyOf id keys (fun _ _ => rfl) (fun key _ s order h hnew => ?_)
    hkeys
  obtain ⟨hpos, hle⟩ := raiseHeight_bounds (by decide : 1 ≤ maxHeight) s.rngState
  obtain ⟨s', order', hinsert, hh, hperm⟩ :=
    (h.withRngState (raiseHeight 1 s.rngState).2).exists_insert hnew hpos hle
  have hkeys' := hperm.map Prod.fst
  rw [entriesOf, map_map, entriesOf, map_cons, map_map] at hkeys'
  exact ⟨s', order', hinsert, hh, hkeys'⟩

/-- The nodes that the links of a level lead to, from the head on. -/
def chain (s : SkipList cmp) (level : ℕ) : Option (List ℕ) :=
  follow (s.link · level) s.rounds head

theorem Holds.chain_eq (h : Holds s order) (hlev : level < maxHeight) :
    s.chain level = some (order.filter fun x => level < s.heightOf x) := by
  have hr := h.length_lt_rounds
  exact h.linked.follow_eq_filter (by rwa [h.heightOf_head]) (by omega)

/-- No link leads to a node that is not taller than its level. -/
theorem Holds.lt_heightOf (h : Holds s order) (hnext : s.nextAt x level = some (some y)) :
    level < s.heightOf y := by
  have hlev := lt_heightOf_of_nextAt hnext
  have hx : x < s.nodes.length := by
    by_contra hx
    rw [heightOf, getElem?_eq_none (Nat.not_lt.mp hx)] at hlev
    cases hlev
  obtain ⟨before, rest, hs⟩ := append_of_mem ((h.mem_iff x).mpr hx)
  have hl := h.linked
  rw [hs] at hl
  rw [nextAt_eq hlev, hl.link_eq hlev] at hnext
  exact (mem_of_firstTaller (Option.some.inj hnext)).2

/-- `contains` finds the keys that the list has. -/
theorem Holds.exists_contains [Std.TransCmp cmp] (h : Holds s order) (target : Bytes) :
    ∃ found, s.contains target = some found ∧
      (found = true ↔ ∃ x ∈ order, cmp (s.keyOf x) target = .eq) := by
  obtain ⟨front, back, rfl, hf, hback⟩ := h.exists_split target
  obtain ⟨prev, hfind, -⟩ := h.findGreaterOrEqual_split hf hback
  -- Only the first key that is not below the target can be equal to it.
  have hequal : ∀ x ∈ front ++ back, cmp (s.keyOf x) target = .eq → back.head? = some x := by
    intro x hx heq
    rcases mem_append.mp hx with hx | hx
    · rw [hf x hx] at heq
      cases heq
    · cases back with
      | nil => cases hx
      | cons y back =>
        rcases mem_cons.mp hx with rfl | hx
        · rfl
        · have hlt := (pairwise_cons.mp (pairwise_append.mp h.sorted).2.1).1 x hx
          exact absurd (Std.TransCmp.lt_of_lt_of_eq hlt heq) (hback y mem_cons_self)
  rw [contains, hfind]
  rcases hhead : back.head? with _ | y
  · refine ⟨false, rfl, ⟨Bool.false_ne_true.elim, ?_⟩⟩
    rintro ⟨x, hx, heq⟩
    rw [hequal x hx heq] at hhead
    cases hhead
  · have hy : y ∈ front ++ back := mem_append_right _ (mem_of_head? hhead)
    obtain ⟨node, hnode, hkey⟩ := getElem?_nodes ((h.mem_iff y).mp (mem_cons_of_mem _ hy))
    refine ⟨cmp (s.keyOf y) target == .eq, by simp [hnode, hkey], ?_⟩
    rw [beq_iff_eq]
    refine ⟨fun heq => ⟨y, hy, heq⟩, ?_⟩
    rintro ⟨x, hx, heq⟩
    rw [hequal x hx heq] at hhead
    rwa [← Option.some.inj hhead]

/-- **A skip list of these keys, with nodes of these heights.** The lowest level has all keys in
their order and every other level the nodes of the one below that are taller. An iterator is a
cursor over the keys, and `contains` finds the keys that the list has. -/
structure Correct (s : SkipList cmp) (entries : List (Bytes × ℕ)) : Prop where
  bottom : ∃ order, s.chain 0 = some order ∧ (s.entriesOf order).Perm entries ∧
    ((order.map s.keyOf).Pairwise fun a b => cmp a b = .lt) ∧
    Cursor.Lawful SkipListIter.step SkipListIter.Shows (fun target key => (cmp target key).isLE)
      (order.map s.keyOf) { list := s }
  upper : ∀ level, level + 1 < maxHeight → ∃ lower, s.chain level = some lower ∧
    s.chain (level + 1) = some (lower.filter fun x => level + 1 < s.heightOf x)
  links : ∀ x level y, s.nextAt x level = some (some y) → level < s.heightOf y
  contains : ∀ target, ∃ found, s.contains target = some found ∧
    (found = true ↔ ∃ e ∈ entries, cmp e.1 target = .eq)

theorem Holds.correct [Std.TransCmp cmp] {entries : List (Bytes × ℕ)} (h : Holds s order)
    (hperm : (s.entriesOf order).Perm entries) : Correct s entries where
  bottom := by
    refine ⟨order, ?_, hperm, pairwise_map.mpr h.sorted, h.lawful⟩
    rw [h.chain_eq (by decide), filter_eq_self.mpr]
    exact fun x hx => decide_eq_true (h.heightOf_pos x hx)
  upper level hlev := by
    refine ⟨_, h.chain_eq (Nat.lt_of_succ_lt hlev), ?_⟩
    rw [h.chain_eq hlev, filter_filter]
    refine congrArg some (filter_congr fun x _ => ?_)
    simp only [Bool.and_eq_decide, decide_eq_decide, decide_eq_true_eq]
    omega
  links x level y hnext := h.lt_heightOf hnext
  contains target := by
    obtain ⟨found, hcontains, hfound⟩ := h.exists_contains target
    refine ⟨found, hcontains, hfound.trans ?_⟩
    constructor
    · rintro ⟨x, hx, heq⟩
      exact ⟨_, hperm.mem_iff.mp (mem_map_of_mem hx), heq⟩
    · rintro ⟨e, he, heq⟩
      obtain ⟨x, hx, rfl⟩ := mem_map.mp (hperm.mem_iff.mpr he)
      exact ⟨x, hx, heq⟩

/-- **After every run of insertions of different keys the list is correct**, whatever the heights of
the nodes. -/
theorem correct_insertAll [Std.TransCmp cmp] (entries : List (Bytes × ℕ))
    (hheights : ∀ e ∈ entries, 0 < e.2 ∧ e.2 ≤ maxHeight)
    (hkeys : entries.Pairwise fun a b => cmp a.1 b.1 ≠ .eq) :
    ∃ s, ({} : SkipList cmp).insertAll entries = some s ∧ Correct s entries := by
  obtain ⟨s, order, hrun, hh, hperm⟩ := exists_insertAll hheights hkeys
  exact ⟨s, hrun, hh.correct hperm⟩

/-- Three nodes, the second one in front of the first and taller than the list has been. -/
theorem correct_insertAll_three : ∃ s, ({} : SkipList BytewiseComparator.compare).insertAll
    [([5], 1), ([2], 12), ([9], 2)] = some s ∧ Correct s [([5], 1), ([2], 12), ([9], 2)] :=
  correct_insertAll _ (by decide) (by decide)

end SkipList

end PulsearcDb
