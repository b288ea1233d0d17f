import PulsearcDb.DbIterator
import PulsearcDb.Format
import Mathlib.Data.List.Forall2

/-!
# The merging iterator

`MergingIterator` (`merging_iter/merging_iter.rs`) makes one iterator of several. It is at the child
with the smallest key when it goes forward and at the child with the largest key when it goes
backward, and a change of direction first brings the other children to the other side of the current
key.

Going forward, every child is at its first entry that is not before the current one; going backward,
at its last entry that is not behind it. From this one invariant every call goes where it goes on a
cursor over the sorted union of the children, `MergingIterator.tracks`.
-/

namespace PulsearcDb

open Cursor List

/-- `enum Direction`. -/
inductive Direction
  | forward
  | reverse
  deriving DecidableEq, Repr

/-- `struct MergingIterator`, for the comparison of its comparator. -/
structure MergingIterator (cmp : Compare) (σ : Type) where
  children : List σ
  current : Option ℕ := none
  direction : Direction := .forward

namespace MergingIterator

variable {σ : Type} [DbIterator σ] {cmp : Compare}

variable (cmp) in
/-- One child in the loop of `find_smallest` and `find_largest`. -/
def takeBetter (better : Ordering → Bool) (children : List σ) (best : Option ℕ) (child : σ)
    (i : ℕ) : Option (Option ℕ) :=
  if DbIterator.valid child then
    match best with
    | none => some (some i)
    | some b => do
      let key ← DbIterator.key child
      let bestKey ← children[b]?.bind DbIterator.key
      return if better (cmp key bestKey) then some i else some b
  else some best

variable (cmp) in
/-- The first of the best valid children. -/
def findBest (better : Ordering → Bool) (children : List σ) : Option (Option ℕ) :=
  children.zipIdx.foldlM (fun best x => takeBetter cmp better children best x.1 x.2) none

variable (cmp) in
/-- The child with the smallest key. -/
def findSmallest (children : List σ) : Option (Option ℕ) := findBest cmp (·.isLT) children

variable (cmp) in
/-- The child with the largest key. -/
def findLargest (children : List σ) : Option (Option ℕ) := findBest cmp (·.isGT) children

/-- A loop over all children. -/
def forEach (f : ℕ → σ → Option σ) (children : List σ) : Option (List σ) :=
  children.zipIdx.mapM fun x => f x.2 x.1

/-- The current child is valid. -/
def valid (it : MergingIterator cmp σ) : Bool :=
  it.current.any fun i => it.children[i]?.any DbIterator.valid

/-- All children go to their first entry. -/
def seekToFirst (it : MergingIterator cmp σ) : Option (MergingIterator cmp σ) := do
  let children ← forEach (fun _ => DbIterator.seekToFirst) it.children
  let current ← findSmallest cmp children
  return { children, current, direction := .forward }

/-- All children go to their last entry. -/
def seekToLast (it : MergingIterator cmp σ) : Option (MergingIterator cmp σ) := do
  let children ← forEach (fun _ => DbIterator.seekToLast) it.children
  let current ← findLargest cmp children
  return { children, current, direction := .reverse }

/-- All children seek the target. -/
def seek (it : MergingIterator cmp σ) (target : Bytes) : Option (MergingIterator cmp σ) := do
  let children ← forEach (fun _ child => DbIterator.seek child target) it.children
  let current ← findSmallest cmp children
  return { children, current, direction := .forward }

/-- The current child, and the key that it is at. -/
def currentKey (it : MergingIterator cmp σ) : Option (ℕ × Bytes) := do
  let cur ← it.current
  let child ← it.children[cur]?
  let key ← DbIterator.key child
  return (cur, key)

variable (cmp) in
/-- A child that is not the current one goes behind the current key. -/
def seekBehind (key : Bytes) (child : σ) : Option σ := do
  let child ← DbIterator.seek child key
  if DbIterator.valid child then
    let childKey ← DbIterator.key child
    if (cmp key childKey).isEq then DbIterator.next child else return child
  else return child

/-- A child that is not the current one goes before the current key. -/
def seekBefore (key : Bytes) (child : σ) : Option σ := do
  let child ← DbIterator.seek child key
  if DbIterator.valid child then DbIterator.prev child else DbIterator.seekToLast child

/-- The children, turned into a direction. -/
def turn (direction : Direction) (reposition : Bytes → σ → Option σ) (it : MergingIterator cmp σ) :
    Option (List σ) :=
  if it.direction ≠ direction then do
    let (cur, key) ← it.currentKey
    forEach (fun i child => if i = cur then some child else reposition key child) it.children
  else some it.children

/-- The current child makes a step. -/
def stepCurrent (f : σ → Option σ) (cur : ℕ) (children : List σ) : Option (List σ) := do
  let child ← children[cur]?
  let child ← f child
  return children.set cur child

/-- On a turn the other children go behind the key. -/
def next (it : MergingIterator cmp σ) : Option (MergingIterator cmp σ) := do
  guard it.valid
  let children ← it.turn .forward (seekBehind cmp)
  let cur ← it.current
  let children ← stepCurrent DbIterator.next cur children
  let current ← findSmallest cmp children
  return { children, current, direction := .forward }

/-- On a turn the other children go before the key. -/
def prev (it : MergingIterator cmp σ) : Option (MergingIterator cmp σ) := do
  guard it.valid
  let children ← it.turn .reverse seekBefore
  let cur ← it.current
  let children ← stepCurrent DbIterator.prev cur children
  let current ← findLargest cmp children
  return { children, current, direction := .reverse }

/-- The child that is shown. -/
def currentChild (it : MergingIterator cmp σ) : Option σ := it.current.bind (it.children[·]?)

/-- The first error of a child. -/
def status (it : MergingIterator cmp σ) : Result Unit := it.children.forM DbIterator.status

instance : DbIterator (MergingIterator cmp σ) where
  valid := valid
  seekToFirst := seekToFirst
  seekToLast := seekToLast
  seek := seek
  next := next
  prev := prev
  key it := it.currentChild.bind DbIterator.key
  value it := it.currentChild.bind DbIterator.value
  status := status

/-! ### The loops over the children -/

omit [DbIterator σ] in
private theorem mapM_zipIdx {f : ℕ → σ → Option σ} {Q : ℕ → σ → Prop} {children : List σ} {k : ℕ}
    (h : ∀ i child, children[i]? = some child → ∃ child', f (k + i) child = some child' ∧
      Q (k + i) child') :
    ∃ children', ((children.zipIdx k).mapM fun x => f x.2 x.1) = some children' ∧
      children'.length = children.length ∧
      ∀ i child', children'[i]? = some child' → Q (k + i) child' := by
  induction children generalizing k with
  | nil => exact ⟨[], rfl, rfl, fun i child' hi => by simp at hi⟩
  | cons child children ih =>
    obtain ⟨child', hf, hQ⟩ := h 0 child rfl
    obtain ⟨children', hrest, hlen, hQs⟩ := @ih (k + 1) fun i c hi => by
      rw [show k + 1 + i = k + (i + 1) by omega]
      exact h (i + 1) c hi
    refine ⟨child' :: children', ?_, by simp [hlen], fun i c hi => ?_⟩
    · rw [Nat.add_zero] at hf
      simp [zipIdx_cons, mapM_cons, hf, hrest]
    · cases i with
      | zero =>
        obtain rfl := Option.some.inj hi
        exact hQ
      | succ i =>
        rw [show k + (i + 1) = k + 1 + i by omega]
        exact hQs i c hi

omit [DbIterator σ] in
theorem forEach_spec {f : ℕ → σ → Option σ} {Q : ℕ → σ → Prop} {children : List σ}
    (h : ∀ i child, children[i]? = some child → ∃ child', f i child = some child' ∧ Q i child') :
    ∃ children', forEach f children = some children' ∧ children'.length = children.length ∧
      ∀ i child', children'[i]? = some child' → Q i child' := by
  have hzero : ∀ i child, children[i]? = some child → ∃ child', f (0 + i) child = some child' ∧
      Q (0 + i) child' := by simpa only [Nat.zero_add] using h
  rw [forEach]
  simpa only [Nat.zero_add] using mapM_zipIdx hzero

/-- What the loop for the best child has found among the first children. -/
private def Best (worse : Bytes → Bytes → Prop) (ps : ℕ → Option Pair) (n : ℕ) :
    Option ℕ → Prop
  | none => ∀ i < n, ps i = none
  | some b => ∃ e, b < n ∧ ps b = some e ∧ ∀ i < n, ∀ e' ∈ ps i, worse e.1 e'.1

section Best

variable {ps : ℕ → Option Pair} {children : List σ} {better : Ordering → Bool}
  {worse : Bytes → Bytes → Prop} (hw : ∀ a b, better (cmp a b) = false ↔ worse b a)
  (htotal : ∀ a b, worse a b ∨ worse b a) (htrans : ∀ a b c, worse a b → worse b c → worse a c)
  (hs : ∀ i child, children[i]? = some child → DbIterator.Shows child (ps i))
include hw htotal htrans hs

private theorem takeBetter_spec {n : ℕ} {child : σ} (hchild : children[n]? = some child)
    {best : Option ℕ} (hbest : Best worse ps n best) :
    ∃ r, takeBetter cmp better children best child n = some r ∧ Best worse ps (n + 1) r := by
  have hshow := hs n child hchild
  unfold takeBetter
  rcases hp : ps n with _ | e
  · rw [hp] at hshow
    have hinvalid : DbIterator.valid child = false := hshow
    refine ⟨best, by rw [hinvalid]; rfl, ?_⟩
    cases best with
    | none =>
      intro i hi
      rcases Nat.lt_succ_iff_lt_or_eq.mp hi with hlt | rfl
      · exact hbest i hlt
      · exact hp
    | some b =>
      obtain ⟨e, hb, he, hall⟩ := hbest
      refine ⟨e, by omega, he, fun i hi e' he' => ?_⟩
      rcases Nat.lt_succ_iff_lt_or_eq.mp hi with hlt | rfl
      · exact hall i hlt e' he'
      · rw [hp] at he'
        cases he'
  · rw [hp] at hshow
    obtain ⟨hv, hkey, -⟩ := hshow
    rw [hv, if_pos rfl]
    have hrefl : ∀ a, worse a a := fun a => (htotal a a).elim id id
    cases best with
    | none =>
      refine ⟨some n, rfl, e, Nat.lt_succ_self n, hp, fun i hi e' he' => ?_⟩
      rcases Nat.lt_succ_iff_lt_or_eq.mp hi with hlt | rfl
      · rw [hbest i hlt] at he'
        cases he'
      · obtain rfl := Option.some.inj (hp.symm.trans he')
        exact hrefl _
    | some b =>
      obtain ⟨eb, hb, heb, hall⟩ := hbest
      have hlt : n < children.length := (List.getElem?_eq_some_iff.mp hchild).1
      have hgetb : children[b]? = some children[b] := getElem?_eq_getElem (hb.trans hlt)
      have hshowb := hs b _ hgetb
      rw [heb] at hshowb
      simp only [hkey, hgetb, Option.bind_some, hshowb.2.1]
      rcases hbetter : better (cmp e.1 eb.1) with _ | _
      · refine ⟨some b, by simp [hbetter], eb, by omega, heb, fun i hi e' he' => ?_⟩
        rcases Nat.lt_succ_iff_lt_or_eq.mp hi with hlt | rfl
        · exact hall i hlt e' he'
        · obtain rfl := Option.some.inj (hp.symm.trans he')
          exact (hw _ _).mp hbetter
      · have hbest : worse e.1 eb.1 := by
          refine (htotal e.1 eb.1).resolve_right fun hback => ?_
          rw [(hw e.1 eb.1).mpr hback] at hbetter
          cases hbetter
        refine ⟨some n, by simp [hbetter], e, Nat.lt_succ_self n, hp, fun i hi e' he' => ?_⟩
        rcases Nat.lt_succ_iff_lt_or_eq.mp hi with hlt | rfl
        · exact htrans _ _ _ hbest (hall i hlt e' he')
        · obtain rfl := Option.some.inj (hp.symm.trans he')
          exact hrefl _

private theorem findBest_spec : ∃ r, findBest cmp better children = some r ∧
    Best worse ps children.length r := by
  suffices hgo : ∀ rest done best, children = done ++ rest → Best worse ps done.length best →
      ∃ r, (rest.zipIdx done.length).foldlM
        (fun best x => takeBetter cmp better children best x.1 x.2) best = some r ∧
          Best worse ps children.length r from
    hgo children [] none rfl fun _ hi => absurd hi (Nat.not_lt_zero _)
  intro rest
  induction rest with
  | nil =>
    rintro done best hchildren hbest
    rw [append_nil] at hchildren
    exact ⟨best, rfl, hchildren ▸ hbest⟩
  | cons child rest ih =>
    intro done best hchildren hbest
    have hchild : children[done.length]? = some child := by simp [hchildren]
    obtain ⟨r, hr, hbest'⟩ := takeBetter_spec hw htotal htrans hs hchild hbest
    obtain ⟨r', hr', hbest''⟩ :=
      ih (done ++ [child]) r (by simp [hchildren]) (by simpa using hbest')
    refine ⟨r', ?_, hbest''⟩
    rw [length_append, length_singleton] at hr'
    simp [zipIdx_cons, foldlM_cons, hr, hr']

end Best

/-! ### The invariant -/

section Invariant

variable [Std.TransCmp cmp] {n : ℕ} {S : ℕ → Set Pair} {Ats : ℕ → σ → Option Pair → Prop}
  {ps : ℕ → Option Pair} {children : List σ} {e : Pair}

/-- The entries of all children. -/
def union (n : ℕ) (S : ℕ → Set Pair) : Set Pair := {e | ∃ i < n, e ∈ S i}

/-- The place of an entry. -/
noncomputable abbrev place (cmp : Compare) [Std.TransCmp cmp]
    (e : Pair) : Rank cmp := rank cmp e.1

/-- The children are at these entries. -/
def Placed (n : ℕ) (Ats : ℕ → σ → Option Pair → Prop)
    (ps : ℕ → Option Pair) (children : List σ) : Prop :=
  children.length = n ∧ ∀ i child, children[i]? = some child → Ats i child (ps i)

/-- Where a child is when the iterator is at an entry: on one side of it, and as close to it as the
child can be. -/
def Beside (cmp : Compare) [Std.TransCmp cmp] (T : Set Pair)
    (e : Pair) : Direction → Option Pair → Prop
  | .forward, p => IsFirst (place cmp) {x ∈ T | place cmp e ≤ place cmp x} p
  | .reverse, p => IsLast (place cmp) {x ∈ T | place cmp x ≤ place cmp e} p

/-- The iterator is at an entry, or at none. -/
def At (n : ℕ) (S : ℕ → Set Pair) (Ats : ℕ → σ → Option Pair → Prop)
    (it : MergingIterator cmp σ) (p : Option Pair) : Prop :=
  ∃ ps, Placed n Ats ps it.children ∧
    match p with
    | none => it.current = none
    | some e => ∃ cur < n, it.current = some cur ∧ ps cur = some e ∧
      ∀ i < n, Beside cmp (S i) e it.direction (ps i)

theorem Beside.mem {T : Set Pair} {direction : Direction}
    (h : Beside cmp T e direction (some e)) : e ∈ T := by
  cases direction <;> exact h.1.1

theorem beside_self {T : Set Pair} (he : e ∈ T) (direction : Direction) :
    Beside cmp T e direction (some e) := by
  cases direction
  · exact ⟨⟨he, le_rfl⟩, fun x hx => hx.2⟩
  · exact ⟨⟨he, le_rfl⟩, fun x hx => hx.2⟩

omit [DbIterator σ] in
theorem Placed.exists_child (hplaced : Placed n Ats ps children) {i : ℕ} (hi : i < n) :
    ∃ child, children[i]? = some child ∧ Ats i child (ps i) := by
  rw [← hplaced.1] at hi
  exact ⟨_, getElem?_eq_getElem hi, hplaced.2 i _ (getElem?_eq_getElem hi)⟩

theorem sep_union (P : Pair → Prop) :
    {x ∈ union n S | P x} = {x | ∃ i ∈ {i | i < n}, x ∈ {x ∈ S i | P x}} := by
  ext x
  constructor
  · rintro ⟨⟨i, hi, hx⟩, hPx⟩
    exact ⟨i, hi, hx, hPx⟩
  · rintro ⟨i, hi, hx, hPx⟩
    exact ⟨⟨i, hi, hx⟩, hPx⟩

omit [DbIterator σ] in
/-- A loop over the children that brings each of them to some entry. -/
theorem forEach_placed {f : ℕ → σ → Option σ} {R : ℕ → Option Pair → Prop}
    (hplaced : Placed n Ats ps children)
    (h : ∀ i < n, ∀ child, Ats i child (ps i) →
      ∃ child' q, f i child = some child' ∧ Ats i child' q ∧ R i q) :
    ∃ children' ps', forEach f children = some children' ∧ Placed n Ats ps' children' ∧
      ∀ i < n, R i (ps' i) := by
  have hlt : ∀ {i child}, children[i]? = some child → i < n := fun hchild =>
    hplaced.1 ▸ (List.getElem?_eq_some_iff.mp hchild).1
  have hspec : ∀ i child, children[i]? = some child →
      ∃ child', f i child = some child' ∧ ∃ q, Ats i child' q ∧ R i q := by
    intro i child hchild
    obtain ⟨child', q, hf, hq⟩ := h i (hlt hchild) child (hplaced.2 i child hchild)
    exact ⟨child', hf, q, hq⟩
  obtain ⟨children', hforEach, hlen, hQ⟩ := forEach_spec hspec
  rw [hplaced.1] at hlen
  have hchoose : ∀ i, ∃ q, i < n → (∀ child', children'[i]? = some child' → Ats i child' q) ∧
      R i q := fun i => by
    by_cases hi : i < n
    · obtain ⟨q, hat, hR⟩ := hQ i _ (getElem?_eq_getElem (hlen.symm ▸ hi))
      refine ⟨q, fun _ => ⟨fun child' hchild' => ?_, hR⟩⟩
      rw [getElem?_eq_getElem (hlen.symm ▸ hi)] at hchild'
      exact Option.some.inj hchild' ▸ hat
    · exact ⟨none, fun hi' => absurd hi' hi⟩
  choose ps' hps' using hchoose
  exact ⟨children', ps', hforEach,
    ⟨hlen, fun i child' hchild' =>
      (hps' i (hlen ▸ (List.getElem?_eq_some_iff.mp hchild').1)).1 child' hchild'⟩,
    fun i hi => (hps' i hi).2⟩

section Searches

variable (ht : ∀ i < n, DbIterator.Tracks cmp (S i) (Ats i))
include ht

section

variable (hplaced : Placed n Ats ps children)
include hplaced

theorem Placed.shows (i : ℕ) (child : σ) (hchild : children[i]? = some child) :
    DbIterator.Shows child (ps i) :=
  (ht i (hplaced.1 ▸ (List.getElem?_eq_some_iff.mp hchild).1)).shows (hplaced.2 i child hchild)

/-- **The smallest child.** When every child is at its first entry of a part that is closed upwards,
the iterator is at the first entry of that part of all entries. -/
theorem findSmallest_spec {P : Pair → Prop} (hP : ∀ x y, P x → place cmp x ≤ place cmp y → P y)
    (hfst : ∀ i < n, IsFirst (place cmp) {x ∈ S i | P x} (ps i)) :
    ∃ current q, findSmallest cmp children = some current ∧
      At n S Ats (⟨children, current, .forward⟩ : MergingIterator cmp σ) q ∧
      IsFirst (place cmp) {x ∈ union n S | P x} q := by
  have hw : ∀ a b, (cmp a b).isLT = false ↔ rank cmp b ≤ rank cmp a := fun a b => by
    rw [← not_lt, rank_lt_rank, Bool.eq_false_iff]
    exact not_congr Ordering.isLT_iff_eq_lt
  obtain ⟨r, hr, hbest⟩ := findBest_spec hw (fun a b => le_total _ _) (fun a b c => le_trans)
    (hplaced.shows ht)
  rw [hplaced.1] at hbest
  cases r with
  | none =>
    exact ⟨none, none, hr, ⟨ps, hplaced, rfl⟩, sep_union P ▸ isFirst_none_of_forall hfst hbest⟩
  | some b =>
    obtain ⟨e, hb, he, hall⟩ := hbest
    have hleast : IsFirst (place cmp) {x ∈ union n S | P x} (some e) :=
      sep_union P ▸ isFirst_of_forall hfst hb he hall
    refine ⟨some b, some e, hr, ⟨ps, hplaced, b, hb, rfl, he, fun i hi => ?_⟩, hleast⟩
    change IsFirst (place cmp) {x ∈ S i | place cmp e ≤ place cmp x} (ps i)
    rw [← hleast.sep_eq (fun x hx => ⟨i, hi, hx⟩) hP]
    exact hfst i hi

/-- **The largest child.** -/
theorem findLargest_spec {P : Pair → Prop} (hP : ∀ x y, P x → place cmp y ≤ place cmp x → P y)
    (hlast : ∀ i < n, IsLast (place cmp) {x ∈ S i | P x} (ps i)) :
    ∃ current q, findLargest cmp children = some current ∧
      At n S Ats (⟨children, current, .reverse⟩ : MergingIterator cmp σ) q ∧
      IsLast (place cmp) {x ∈ union n S | P x} q := by
  have hw : ∀ a b, (cmp a b).isGT = false ↔ rank cmp a ≤ rank cmp b := fun a b => by
    rw [rank_le_rank, Bool.eq_false_iff, Ordering.isLE_iff_ne_gt]
    exact not_congr Ordering.isGT_iff_eq_gt
  obtain ⟨r, hr, hbest⟩ := findBest_spec hw (fun a b => le_total _ _)
    (fun a b c hab hbc => hbc.trans hab) (hplaced.shows ht)
  rw [hplaced.1] at hbest
  cases r with
  | none =>
    exact ⟨none, none, hr, ⟨ps, hplaced, rfl⟩, sep_union P ▸ isLast_none_of_forall hlast hbest⟩
  | some b =>
    obtain ⟨e, hb, he, hall⟩ := hbest
    have hgreatest : IsLast (place cmp) {x ∈ union n S | P x} (some e) :=
      sep_union P ▸ isLast_of_forall hlast hb he hall
    refine ⟨some b, some e, hr, ⟨ps, hplaced, b, hb, rfl, he, fun i hi => ?_⟩, hgreatest⟩
    change IsLast (place cmp) {x ∈ S i | place cmp x ≤ place cmp e} (ps i)
    rw [← hgreatest.sep_eq (fun x hx => ⟨i, hi, hx⟩) hP]
    exact hlast i hi

/-! ### The calls -/

/-- All children make a call. -/
theorem forEach_step (call : Call Bytes) (ha : ∀ p : Option Pair, call.Allowed p) :
    ∃ children' ps', forEach (fun _ child => DbIterator.step child call) children = some children' ∧
      Placed n Ats ps' children' ∧
      ∀ i < n, Moves (place cmp) (rank cmp) (S i) (ps i) call (ps' i) := by
  refine forEach_placed hplaced fun i hi child hat => ?_
  exact (ht i hi).moves hat (ha _)

end

variable {it : MergingIterator cmp σ}

theorem seekToFirst_spec (hplaced : Placed n Ats ps it.children) :
    ∃ it' q, it.seekToFirst = some it' ∧ At n S Ats it' q ∧ IsFirst (place cmp) (union n S) q := by
  obtain ⟨children, ps', hforEach, hplaced', hmoves⟩ :=
    forEach_step ht hplaced .seekToFirst fun _ => trivial
  have hfst : ∀ i < n, IsFirst (place cmp) {x ∈ S i | True} (ps' i) := fun i hi => by
    rw [Set.sep_true]
    exact hmoves i hi
  obtain ⟨current, q, hfind, hat, hq⟩ := findSmallest_spec ht hplaced' (fun _ _ _ _ => trivial) hfst
  rw [Set.sep_true] at hq
  refine ⟨_, q, ?_, hat, hq⟩
  rw [seekToFirst]
  change forEach (fun _ => DbIterator.seekToFirst) it.children = _ at hforEach
  simp [hforEach, hfind]

theorem seekToLast_spec (hplaced : Placed n Ats ps it.children) :
    ∃ it' q, it.seekToLast = some it' ∧ At n S Ats it' q ∧ IsLast (place cmp) (union n S) q := by
  obtain ⟨children, ps', hforEach, hplaced', hmoves⟩ :=
    forEach_step ht hplaced .seekToLast fun _ => trivial
  have hlast : ∀ i < n, IsLast (place cmp) {x ∈ S i | True} (ps' i) := fun i hi => by
    rw [Set.sep_true]
    exact hmoves i hi
  obtain ⟨current, q, hfind, hat, hq⟩ := findLargest_spec ht hplaced' (fun _ _ _ _ => trivial) hlast
  rw [Set.sep_true] at hq
  refine ⟨_, q, ?_, hat, hq⟩
  rw [seekToLast]
  change forEach (fun _ => DbIterator.seekToLast) it.children = _ at hforEach
  simp [hforEach, hfind]

theorem seek_spec (hplaced : Placed n Ats ps it.children) (target : Bytes) :
    ∃ it' q, it.seek target = some it' ∧ At n S Ats it' q ∧
      IsFirst (place cmp) {x ∈ union n S | rank cmp target ≤ place cmp x} q := by
  obtain ⟨children, ps', hforEach, hplaced', hmoves⟩ :=
    forEach_step ht hplaced (.seek target) fun _ => trivial
  obtain ⟨current, q, hfind, hat, hq⟩ := findSmallest_spec ht hplaced'
    (fun _ _ hx hxy => hx.trans hxy) hmoves
  refine ⟨_, q, ?_, hat, hq⟩
  rw [seek]
  change forEach (fun _ child => DbIterator.seek child target) it.children = _ at hforEach
  simp [hforEach, hfind]

/-! ### A change of direction -/

variable {p : Option Pair} {child : σ}

/-- A child that shows nothing is at no entry, and one that shows something is at an entry. -/
theorem seek_child {i : ℕ} (hi : i < n) (hat : Ats i child p) (key : Bytes) :
    ∃ child' q, DbIterator.seek child key = some child' ∧ Ats i child' q ∧
      DbIterator.Shows child' q ∧ IsFirst (place cmp) {x ∈ S i | rank cmp key ≤ place cmp x} q := by
  obtain ⟨child', q, hstep, hat', hmoves⟩ := (ht i hi).moves hat
    (show (Call.seek key).Allowed p from trivial)
  exact ⟨child', q, hstep, hat', (ht i hi).shows hat', hmoves⟩

/-- A child without an entry at the key goes behind it. -/
theorem seekBehind_spec {i : ℕ} (hi : i < n) (hat : Ats i child p)
    (hne : ∀ x ∈ S i, place cmp e ≠ place cmp x) :
    ∃ child' q, seekBehind cmp e.1 child = some child' ∧ Ats i child' q ∧
      IsFirst (place cmp) {x ∈ S i | place cmp e ≤ place cmp x} q := by
  obtain ⟨child', q, hseek, hat', hs, hfst⟩ := seek_child ht hi hat e.1
  refine ⟨child', q, ?_, hat', hfst⟩
  cases q with
  | none =>
    have hinvalid : DbIterator.valid child' = false := hs
    simp [seekBehind, hseek, hinvalid]
  | some y =>
    obtain ⟨hv, hkey, -⟩ := hs
    have hnoteq : cmp e.1 y.1 ≠ .eq := fun heq => hne y hfst.1.1 (rank_eq_rank.mpr heq)
    simp [seekBehind, hseek, hv, hkey, hnoteq]

/-- A child without an entry at the key goes before it. -/
theorem seekBefore_spec {i : ℕ} (hi : i < n) (hat : Ats i child p)
    (hne : ∀ x ∈ S i, place cmp e ≠ place cmp x) :
    ∃ child' q, seekBefore e.1 child = some child' ∧ Ats i child' q ∧
      IsLast (place cmp) {x ∈ S i | place cmp x ≤ place cmp e} q := by
  obtain ⟨child', q, hseek, hat', hs, hfst⟩ := seek_child ht hi hat e.1
  cases q with
  | none =>
    have hinvalid : DbIterator.valid child' = false := hs
    obtain ⟨child'', q', hstep, hat'', hmoves⟩ := (ht i hi).moves hat'
      (show Call.seekToLast.Allowed none from trivial)
    -- All entries are before the key.
    have hall : {x ∈ S i | place cmp x ≤ place cmp e} = S i := by
      refine Set.sep_eq_self_iff_mem_true.mpr fun x hx => ?_
      exact (lt_or_ge (place cmp x) (place cmp e)).elim le_of_lt fun hge =>
        absurd (show x ∈ {x ∈ S i | _} from ⟨hx, hge⟩) hfst.notMem_of_none
    refine ⟨child'', q', ?_, hat'', by rw [hall]; exact hmoves⟩
    change DbIterator.seekToLast child' = _ at hstep
    simp [seekBefore, hseek, hinvalid, hstep]
  | some y =>
    obtain ⟨hv, -, -⟩ := hs
    obtain ⟨child'', q', hstep, hat'', hmoves⟩ := (ht i hi).moves hat'
      (show Call.prev.Allowed (some y) from rfl)
    have hbefore : {x ∈ S i | place cmp x ≤ place cmp e} =
        {x ∈ S i | place cmp x < place cmp y} := by
      ext x
      refine and_congr_right fun hx => ⟨fun hle => ?_, fun hlt => ?_⟩
      · exact (lt_of_le_of_ne hle (hne x hx).symm).trans_le hfst.1.2
      · by_contra hgt
        exact absurd (hfst.2 x ⟨hx, (not_le.mp hgt).le⟩) (not_le.mpr hlt)
    refine ⟨child'', q', ?_, hat'', by rw [hbefore]; exact hmoves⟩
    change DbIterator.prev child' = _ at hstep
    simp [seekBefore, hseek, hv, hstep]

/-- The children are brought to the other side of the current entry. -/
theorem turn_spec {cur : ℕ} {direction : Direction} {reposition : Bytes → σ → Option σ}
    (hplaced : Placed n Ats ps it.children) (hcurrent : it.current = some cur) (hcur : cur < n)
    (hp : ps cur = some e) (hbeside : ∀ i < n, Beside cmp (S i) e it.direction (ps i))
    (hreposition : ∀ i < n, i ≠ cur → ∀ child, Ats i child (ps i) →
      ∃ child' q, reposition e.1 child = some child' ∧ Ats i child' q ∧
        Beside cmp (S i) e direction q) :
    ∃ children' ps', it.turn direction reposition = some children' ∧
      Placed n Ats ps' children' ∧ ps' cur = some e ∧
      ∀ i < n, Beside cmp (S i) e direction (ps' i) := by
  rw [turn]
  split_ifs with hdir
  · obtain ⟨child, hchild, -⟩ := hplaced.exists_child hcur
    have hs := hplaced.shows ht cur child hchild
    rw [hp] at hs
    have hkey : it.currentKey = some (cur, e.1) := by
      simp [currentKey, hcurrent, hchild, hs.2.1]
    have hmem : e ∈ S cur := Beside.mem (hp ▸ hbeside cur hcur)
    obtain ⟨children', ps', hforEach, hplaced', hall⟩ := @forEach_placed σ n Ats ps it.children
      (fun i child => if i = cur then some child else reposition e.1 child)
      (fun i q => Beside cmp (S i) e direction q ∧ (i = cur → q = some e)) hplaced
      fun i hi child hat => by
        by_cases hicur : i = cur
        · subst hicur
          rw [hp] at hat
          exact ⟨child, some e, if_pos rfl, hat, beside_self hmem direction, fun _ => rfl⟩
        · obtain ⟨child', q, hf, hat', hq⟩ := hreposition i hi hicur child hat
          exact ⟨child', q, by rw [if_neg hicur, hf], hat', hq, fun heq => absurd heq hicur⟩
    refine ⟨children', ps', ?_, hplaced', (hall cur hcur).2 rfl, fun i hi => (hall i hi).1⟩
    simp [hkey, hforEach]
  · rw [not_not] at hdir
    exact ⟨_, ps, rfl, hplaced, hp, hdir ▸ hbeside⟩

/-- The current child makes a step. -/
theorem stepCurrent_spec {cur : ℕ} {call : Call Bytes} (hplaced : Placed n Ats ps children)
    (hcur : cur < n) (ha : call.Allowed (ps cur)) :
    ∃ children' q, stepCurrent (fun child => DbIterator.step child call) cur children =
        some children' ∧ Placed n Ats (Function.update ps cur q) children' ∧
      Moves (place cmp) (rank cmp) (S cur) (ps cur) call q := by
  obtain ⟨child, hchild, hat⟩ := hplaced.exists_child hcur
  obtain ⟨child', q, hstep, hat', hmoves⟩ := (ht cur hcur).moves hat ha
  refine ⟨children.set cur child', q, by simp [stepCurrent, hchild, hstep], ?_, hmoves⟩
  refine ⟨by rw [length_set, hplaced.1], fun i c hc => ?_⟩
  by_cases hi : i = cur
  · subst hi
    rw [getElem?_set_self (hplaced.1.symm ▸ hcur)] at hc
    rw [Function.update_self, ← Option.some.inj hc]
    exact hat'
  · rw [getElem?_set_ne (Ne.symm hi)] at hc
    rw [Function.update_of_ne hi]
    exact hplaced.2 i c hc

/-- What an iterator at an entry shows. -/
theorem At.shows (hat : At n S Ats it p) : DbIterator.Shows it p := by
  obtain ⟨ps, hplaced, hp⟩ := hat
  cases p with
  | none =>
    have hcurrent : it.current = none := hp
    change it.valid = false
    rw [valid, hcurrent]
    rfl
  | some e =>
    obtain ⟨cur, hcur, hcurrent, hpcur, -⟩ := hp
    obtain ⟨child, hchild, -⟩ := hplaced.exists_child hcur
    have hs := hplaced.shows ht cur child hchild
    rw [hpcur] at hs
    have hcurrentChild : it.currentChild = some child := by
      rw [currentChild, hcurrent, Option.bind_some, hchild]
    refine ⟨?_, ?_, ?_⟩
    · change it.valid = true
      simp [valid, hcurrent, hchild, hs.1]
    · change it.currentChild.bind DbIterator.key = _
      rw [hcurrentChild, Option.bind_some, hs.2.1]
    · change it.currentChild.bind DbIterator.value = _
      rw [hcurrentChild, Option.bind_some, hs.2.2]

variable (hdist : ∀ i < n, ∀ j < n, i ≠ j → ∀ x ∈ S i, ∀ y ∈ S j, place cmp x ≠ place cmp y)
include hdist

theorem next_spec (hat : At n S Ats it (some e)) :
    ∃ it' q, it.next = some it' ∧ At n S Ats it' q ∧
      IsFirst (place cmp) {x ∈ union n S | place cmp e < place cmp x} q := by
  have hv : it.valid = true := (hat.shows ht).1
  obtain ⟨ps, hplaced, cur, hcur, hcurrent, hp, hbeside⟩ := hat
  have hmem : e ∈ S cur := Beside.mem (hp ▸ hbeside cur hcur)
  have hne : ∀ i < n, i ≠ cur → ∀ x ∈ S i, place cmp e ≠ place cmp x := fun i hi hicur x hx =>
    hdist cur hcur i hi (Ne.symm hicur) e hmem x hx
  obtain ⟨children, ps₁, hturn, hplaced₁, hp₁, hbeside₁⟩ := @turn_spec σ _ cmp _ n S Ats ps e
    ht it cur .forward (seekBehind cmp) hplaced hcurrent hcur hp hbeside
    fun i hi hicur child hat => seekBehind_spec ht hi hat (hne i hi hicur)
  obtain ⟨children', q, hstep, hplaced₂, hmoves⟩ := stepCurrent_spec ht hplaced₁ hcur
    (show Call.next.Allowed (ps₁ cur) by rw [hp₁]; rfl)
  have hfst : ∀ i < n, IsFirst (place cmp) {x ∈ S i | place cmp e < place cmp x}
      (Function.update ps₁ cur q i) := fun i hi => by
    by_cases hicur : i = cur
    · subst hicur
      rw [hp₁] at hmoves
      rw [Function.update_self]
      exact hmoves
    · have hlt : {x ∈ S i | place cmp e < place cmp x} = {x ∈ S i | place cmp e ≤ place cmp x} := by
        ext x
        exact and_congr_right fun hx =>
          ⟨le_of_lt, fun hle => lt_of_le_of_ne hle (hne i hi hicur x hx)⟩
      rw [Function.update_of_ne hicur, hlt]
      exact hbeside₁ i hi
  obtain ⟨current, q', hfind, hat', hq'⟩ := findSmallest_spec ht hplaced₂
    (fun _ _ hx hxy => hx.trans_le hxy) hfst
  refine ⟨_, q', ?_, hat', hq'⟩
  change stepCurrent DbIterator.next cur children = _ at hstep
  simp [next, hv, hturn, hcurrent, hstep, hfind]

theorem prev_spec (hat : At n S Ats it (some e)) :
    ∃ it' q, it.prev = some it' ∧ At n S Ats it' q ∧
      IsLast (place cmp) {x ∈ union n S | place cmp x < place cmp e} q := by
  have hv : it.valid = true := (hat.shows ht).1
  obtain ⟨ps, hplaced, cur, hcur, hcurrent, hp, hbeside⟩ := hat
  have hmem : e ∈ S cur := Beside.mem (hp ▸ hbeside cur hcur)
  have hne : ∀ i < n, i ≠ cur → ∀ x ∈ S i, place cmp e ≠ place cmp x := fun i hi hicur x hx =>
    hdist cur hcur i hi (Ne.symm hicur) e hmem x hx
  obtain ⟨children, ps₁, hturn, hplaced₁, hp₁, hbeside₁⟩ := @turn_spec σ _ cmp _ n S Ats ps e
    ht it cur .reverse seekBefore hplaced hcurrent hcur hp hbeside
    fun i hi hicur child hat => seekBefore_spec ht hi hat (hne i hi hicur)
  obtain ⟨children', q, hstep, hplaced₂, hmoves⟩ := stepCurrent_spec ht hplaced₁ hcur
    (show Call.prev.Allowed (ps₁ cur) by rw [hp₁]; rfl)
  have hlast : ∀ i < n, IsLast (place cmp) {x ∈ S i | place cmp x < place cmp e}
      (Function.update ps₁ cur q i) := fun i hi => by
    by_cases hicur : i = cur
    · subst hicur
      rw [hp₁] at hmoves
      rw [Function.update_self]
      exact hmoves
    · have hlt : {x ∈ S i | place cmp x < place cmp e} = {x ∈ S i | place cmp x ≤ place cmp e} := by
        ext x
        exact and_congr_right fun hx =>
          ⟨le_of_lt, fun hle => lt_of_le_of_ne hle (hne i hi hicur x hx).symm⟩
      rw [Function.update_of_ne hicur, hlt]
      exact hbeside₁ i hi
  obtain ⟨current, q', hfind, hat', hq'⟩ := findLargest_spec ht hplaced₂
    (fun _ _ hx hxy => hxy.trans_lt hx) hlast
  refine ⟨_, q', ?_, hat', hq'⟩
  change stepCurrent DbIterator.prev cur children = _ at hstep
  simp [prev, hv, hturn, hcurrent, hstep, hfind]

/-- **Every call of the merging iterator goes where it goes on the union.** -/
theorem tracks :
    DbIterator.Tracks cmp (union n S) fun it : MergingIterator cmp σ => At n S Ats it where
  shows hat := hat.shows ht
  moves {it p call} hat ha := by
    obtain ⟨ps, hplaced, -⟩ := id hat
    cases call with
    | seekToFirst => exact seekToFirst_spec ht hplaced
    | seekToLast => exact seekToLast_spec ht hplaced
    | seek target => exact seek_spec ht hplaced target
    | next =>
      cases p with
      | none => cases ha
      | some e => exact next_spec ht hdist hat
    | prev =>
      cases p with
      | none => cases ha
      | some e => exact prev_spec ht hdist hat

end Searches

end Invariant

/-! ### The sorted union -/

section Lawful

variable [Std.TransCmp cmp] {children : List σ} {lists : List (List Pair)}

variable (cmp) in
/-- The entries of all lists in the order of their keys. -/
def sortedUnion (lists : List (List Pair)) : List Pair :=
  lists.flatten.mergeSort fun a b => (cmp a.1 b.1).isLE

theorem pairwise_sortedUnion (hsort : ∀ l ∈ lists, Increasing cmp l)
    (hdist : lists.Pairwise fun l m => ∀ a ∈ l, ∀ b ∈ m, cmp a.1 b.1 ≠ .eq) :
    Increasing cmp (sortedUnion cmp lists) := by
  have htrans : ∀ a b c : Pair, (cmp a.1 b.1).isLE = true → (cmp b.1 c.1).isLE = true →
      (cmp a.1 c.1).isLE = true := fun a b c => Std.TransCmp.isLE_trans
  have htotal : ∀ a b : Pair, ((cmp a.1 b.1).isLE || (cmp b.1 a.1).isLE) = true :=
    fun a b => (Bool.or_eq_true _ _).mpr (le_total (rank cmp a.1) (rank cmp b.1))
  have hle : (sortedUnion cmp lists).Pairwise fun a b => (cmp a.1 b.1).isLE = true :=
    pairwise_mergeSort htrans htotal _
  have hne : (sortedUnion cmp lists).Pairwise fun a b => cmp a.1 b.1 ≠ .eq := by
    refine (mergeSort_perm _ _).symm.pairwise ?_ fun hab hba =>
      hab (Std.OrientedCmp.eq_symm hba)
    refine pairwise_flatten.mpr ⟨fun l hl => (hsort l hl).imp fun hlt heq => ?_, hdist⟩
    rw [hlt] at heq
    cases heq
  refine hle.imp₂ (fun a b hab hne => ?_) hne
  exact rank_lt_rank.mp (lt_of_le_of_ne (rank_le_rank.mpr hab) fun heq => hne (rank_eq_rank.mp heq))

/-- **The merging iterator is a cursor over the sorted union of its children.** -/
theorem lawful_sortedUnion
    (hchildren : List.Forall₂ (fun child l => DbIterator.Lawful cmp l child) children lists)
    (hsort : ∀ l ∈ lists, Increasing cmp l)
    (hdist : lists.Pairwise fun l m => ∀ a ∈ l, ∀ b ∈ m, cmp a.1 b.1 ≠ .eq) :
    DbIterator.Lawful cmp (sortedUnion cmp lists)
      (⟨children, none, .forward⟩ : MergingIterator cmp σ) := by
  let S : ℕ → Set Pair := fun i => {e | ∃ l, lists[i]? = some l ∧ e ∈ l}
  have hlen : children.length = lists.length := hchildren.length_eq
  have hchild : ∀ i, ∃ At : σ → Option Pair → Prop, i < children.length →
      DbIterator.Tracks cmp (S i) At ∧ ∀ child, children[i]? = some child → At child none := by
    intro i
    by_cases hi : i < children.length
    · have hlist : lists[i]? = some lists[i] := getElem?_eq_getElem (hlen ▸ hi)
      have hS : S i = {e | e ∈ lists[i]} := by
        ext e
        simp [S, hlist]
      obtain ⟨At, ht, hat⟩ := (hchildren.get hi (hlen ▸ hi)).tracks
        (hsort _ (getElem_mem (hlen ▸ hi)))
      refine ⟨At, fun _ => ⟨hS ▸ ht, fun child hchild => ?_⟩⟩
      rw [getElem?_eq_getElem hi] at hchild
      exact Option.some.inj hchild ▸ hat
    · exact ⟨fun _ _ => False, fun hi' => absurd hi' hi⟩
  choose Ats hAts using hchild
  have hunion : union children.length S = {e | e ∈ sortedUnion cmp lists} := by
    ext e
    constructor
    · rintro ⟨i, -, l, hl, he⟩
      exact mem_mergeSort.mpr (mem_flatten.mpr ⟨l, mem_of_getElem? hl, he⟩)
    · intro he
      obtain ⟨l, hl, he⟩ := mem_flatten.mp (mem_mergeSort.mp he)
      obtain ⟨i, hi⟩ := mem_iff_getElem?.mp hl
      exact ⟨i, hlen ▸ (List.getElem?_eq_some_iff.mp hi).1, l, hi, he⟩
  refine DbIterator.lawful_of_tracks (hunion ▸ tracks (fun i hi => (hAts i hi).1) ?_)
    (pairwise_sortedUnion hsort hdist)
    ⟨fun _ => none, ⟨rfl, fun i child hchild => ?_⟩, rfl⟩
  · rintro i - j - hij x ⟨l, hl, hx⟩ y ⟨m, hm, hy⟩ heq
    obtain ⟨hi, rfl⟩ := List.getElem?_eq_some_iff.mp hl
    obtain ⟨hj, rfl⟩ := List.getElem?_eq_some_iff.mp hm
    rcases lt_or_gt_of_ne hij with hlt | hlt
    · exact pairwise_iff_getElem.mp hdist i j hi hj hlt x hx y hy (rank_eq_rank.mp heq)
    · exact pairwise_iff_getElem.mp hdist j i hj hi hlt y hy x hx (rank_eq_rank.mp heq.symm)
  · exact (hAts i (List.getElem?_eq_some_iff.mp hchild).1).2 child hchild

/-- Two children, with the keys `[97]` and `[99]` and the key `[98]`. -/
theorem lawful_twoChildren :
    DbIterator.Lawful bytewiseComparator.compare
      (sortedUnion bytewiseComparator.compare [[([97], [1]), ([99], [3])], [([98], [2])]])
      (⟨[⟨[([97], [1]), ([99], [3])], none⟩, ⟨[([98], [2])], none⟩], none, .forward⟩ :
        MergingIterator bytewiseComparator.compare (ListCursor bytewiseComparator.compare)) :=
  lawful_sortedUnion
    (.cons (ListCursor.lawful_listCursor _) (.cons (ListCursor.lawful_listCursor _) .nil))
    (by decide) (by decide)

end Lawful

end MergingIterator
end PulsearcDb
