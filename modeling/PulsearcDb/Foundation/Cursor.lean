import PulsearcDb.Foundation.Runs
import Mathlib.Data.List.Pairwise
import Mathlib.Data.Set.Function
import Mathlib.Order.Lattice

/-!
# Bidirectional cursors

A bidirectional cursor is at an entry of a sorted list or at none, and is moved by five calls. The
cursor over a list (`listStep`) is the specification. An iterator is *lawful* over a list when,
after any allowed sequence of calls, it has returned and shows what the cursor over the list shows.

For the entries of a strictly sorted list a call is described without the list: it goes to the
first or the last entry of a part of the entries (`Moves`). An iterator is lawful exactly when its
states can be related to entries such that every call moves so (`Tracks`, `Tracks.lawful`,
`Lawful.tracks`), and that is how iterators are composed from iterators.

The entries may be sorted by a comparison function that does not tell all values apart. Up to the
values that it does not tell apart it is a linear order, `Rank cmp`, with `rank cmp a` as the place
of a value.
-/

namespace PulsearcDb.Cursor

open List

variable {σ τ ε κ : Type*}

/-- The calls of a cursor. -/
inductive Call (τ : Type*)
  | seekToFirst
  | seekToLast
  | seek (target : τ)
  | next
  | prev

/-- The cursor has to be at an entry for `next` and `prev`. -/
def Call.Allowed (p : Option ε) : Call τ → Prop
  | .next => p.isSome
  | .prev => p.isSome
  | _ => True

/-! ### The cursor over a list -/

/-- A call on a position in a list. A target is sought by the entries that reach it. -/
def listStep (reaches : τ → ε → Bool) (entries : List ε) : Option ℕ → Call τ → Option ℕ
  | _, .seekToFirst => if 0 < entries.length then some 0 else none
  | _, .seekToLast => if 0 < entries.length then some (entries.length - 1) else none
  | _, .seek target => entries.findIdx? (reaches target)
  | some i, .next => if i + 1 < entries.length then some (i + 1) else none
  | some i, .prev => if 0 < i then some (i - 1) else none
  | none, .next => none
  | none, .prev => none

/-- The entry at a position. -/
def entryAt (entries : List ε) (p : Option ℕ) : Option ε := p.bind (entries[·]?)

/-- An iterator follows the cursor over a list. A call that does not return is `none`, and `Shows`
says what is seen of a state. -/
def Lawful (step : σ → Call τ → Option σ) (Shows : σ → Option ε → Prop) (reaches : τ → ε → Bool)
    (entries : List ε) (s : σ) : Prop :=
  ∀ calls, Runs.Along (listStep reaches entries) (fun p call => call.Allowed p) none calls →
    ∃ s', calls.foldlM step s = some s' ∧
      Shows s' (entryAt entries (Runs.run (listStep reaches entries) none calls))

/-! ### First and last entries -/

section Order

variable [LinearOrder κ] (rank : ε → κ) (place : τ → κ)

/-- The first entry of a set, if it has one. -/
def IsFirst (S : Set ε) : Option ε → Prop
  | some e => e ∈ S ∧ ∀ e' ∈ S, rank e ≤ rank e'
  | none => S = ∅

/-- The last entry of a set, if it has one. -/
def IsLast (S : Set ε) : Option ε → Prop
  | some e => e ∈ S ∧ ∀ e' ∈ S, rank e' ≤ rank e
  | none => S = ∅

/-- Where a call on a cursor over a set of entries goes. -/
def Moves (S : Set ε) : Option ε → Call τ → Option ε → Prop
  | _, .seekToFirst, q => IsFirst rank S q
  | _, .seekToLast, q => IsLast rank S q
  | _, .seek target, q => IsFirst rank {e ∈ S | place target ≤ rank e} q
  | some e, .next, q => IsFirst rank {e' ∈ S | rank e < rank e'} q
  | some e, .prev, q => IsLast rank {e' ∈ S | rank e' < rank e} q
  | none, .next, _ => False
  | none, .prev, _ => False

/-- The states of an iterator, related to the entry that each is at. -/
structure Tracks (step : σ → Call τ → Option σ) (Shows : σ → Option ε → Prop) (S : Set ε)
    (At : σ → Option ε → Prop) : Prop where
  shows : ∀ {s p}, At s p → Shows s p
  moves : ∀ {s p call}, At s p → call.Allowed p →
    ∃ s' q, step s call = some s' ∧ At s' q ∧ Moves rank place S p call q

variable {rank place} {S T : Set ε} {e : ε} {p q q' : Option ε} {call : Call τ}
  {step : σ → Call τ → Option σ} {Shows : σ → Option ε → Prop} {At : σ → Option ε → Prop}
  {reaches : τ → ε → Bool} {entries : List ε}

theorem IsFirst.mem (h : IsFirst rank S q) (he : e ∈ q) : e ∈ S := by
  obtain rfl := he
  exact h.1

theorem IsLast.mem (h : IsLast rank S q) (he : e ∈ q) : e ∈ S := by
  obtain rfl := he
  exact h.1

theorem IsFirst.unique (hinj : Set.InjOn rank S) (h : IsFirst rank S q) (h' : IsFirst rank S q') :
    q = q' := by
  cases q with
  | none =>
    cases q' with
    | none => rfl
    | some e' => exact absurd h'.1 (h ▸ Set.notMem_empty e')
  | some e =>
    cases q' with
    | none => exact absurd h.1 (h' ▸ Set.notMem_empty e)
    | some e' => rw [hinj h.1 h'.1 (le_antisymm (h.2 e' h'.1) (h'.2 e h.1))]

/-- The last entry is the first one in the reverse order. -/
theorem isFirst_toDual : IsFirst (fun e => OrderDual.toDual (rank e)) S q ↔ IsLast rank S q := by
  cases q <;> rfl

theorem IsLast.unique (hinj : Set.InjOn rank S) (h : IsLast rank S q) (h' : IsLast rank S q') :
    q = q' := by
  have hdual : Set.InjOn (fun e => OrderDual.toDual (rank e)) S := hinj
  exact IsFirst.unique hdual (isFirst_toDual.mpr h) (isFirst_toDual.mpr h')

theorem IsFirst.notMem_of_none (h : IsFirst rank S none) : e ∉ S :=
  fun he => Set.notMem_empty e (h ▸ he)

theorem IsLast.notMem_of_none (h : IsLast rank S none) : e ∉ S :=
  fun he => Set.notMem_empty e (h ▸ he)

variable {ι : Type*} {I : Set ι} {ps : ι → Option ε}

/-- The first entry of several sets is the first one among their first entries. -/
theorem isFirst_of_forall {T : ι → Set ε} {i : ι} (hfst : ∀ j ∈ I, IsFirst rank (T j) (ps j))
    (hi : i ∈ I) (hp : ps i = some e) (hall : ∀ j ∈ I, ∀ e' ∈ ps j, rank e ≤ rank e') :
    IsFirst rank {x | ∃ j ∈ I, x ∈ T j} (some e) := by
  refine ⟨⟨i, hi, (hfst i hi).mem hp⟩, ?_⟩
  rintro x ⟨j, hj, hx⟩
  have hj' := hfst j hj
  rcases hpj : ps j with _ | y
  · rw [hpj] at hj'
    exact absurd hx hj'.notMem_of_none
  · rw [hpj] at hj'
    exact (hall j hj y hpj).trans (hj'.2 x hx)

theorem isFirst_none_of_forall {T : ι → Set ε} (hfst : ∀ j ∈ I, IsFirst rank (T j) (ps j))
    (hall : ∀ j ∈ I, ps j = none) :
    IsFirst rank {x | ∃ j ∈ I, x ∈ T j} none := by
  refine Set.eq_empty_of_forall_notMem ?_
  rintro x ⟨j, hj, hx⟩
  exact IsFirst.notMem_of_none (hall j hj ▸ hfst j hj) hx

theorem isLast_of_forall {T : ι → Set ε} {i : ι} (hlast : ∀ j ∈ I, IsLast rank (T j) (ps j))
    (hi : i ∈ I) (hp : ps i = some e) (hall : ∀ j ∈ I, ∀ e' ∈ ps j, rank e' ≤ rank e) :
    IsLast rank {x | ∃ j ∈ I, x ∈ T j} (some e) :=
  isFirst_toDual.mp (isFirst_of_forall (fun j hj => isFirst_toDual.mpr (hlast j hj)) hi hp hall)

theorem isLast_none_of_forall {T : ι → Set ε} (hlast : ∀ j ∈ I, IsLast rank (T j) (ps j))
    (hall : ∀ j ∈ I, ps j = none) :
    IsLast rank {x | ∃ j ∈ I, x ∈ T j} none :=
  isFirst_toDual.mp (isFirst_none_of_forall (fun j hj => isFirst_toDual.mpr (hlast j hj)) hall)

section Image

variable {ε' κ' : Type*} [LinearOrder κ'] {rank' : ε' → κ'} {f : ε → ε'}

theorem IsFirst.image (h : IsFirst rank S p)
    (hmono : ∀ a ∈ S, ∀ b ∈ S, rank a ≤ rank b → rank' (f a) ≤ rank' (f b)) :
    IsFirst rank' (Set.image f S) (p.map f) := by
  cases p with
  | none =>
    rw [show S = ∅ from h, Set.image_empty]
    rfl
  | some e =>
    refine ⟨Set.mem_image_of_mem f h.1, ?_⟩
    rintro _ ⟨e', he', rfl⟩
    exact hmono e h.1 e' he' (h.2 e' he')

theorem IsLast.image (h : IsLast rank S p)
    (hmono : ∀ a ∈ S, ∀ b ∈ S, rank a ≤ rank b → rank' (f a) ≤ rank' (f b)) :
    IsLast rank' (Set.image f S) (p.map f) :=
  isFirst_toDual.mp ((isFirst_toDual.mpr h).image fun a ha b hb hab => hmono b hb a ha hab)

end Image

/-- A call goes to an entry of the set. -/
theorem Moves.mem (h : Moves rank place S p call q) (he : e ∈ q) : e ∈ S := by
  cases call with
  | seekToFirst => exact IsFirst.mem h he
  | seekToLast => exact IsLast.mem h he
  | seek target => exact (IsFirst.mem h he).1
  | next =>
    cases p with
    | none => exact h.elim
    | some _ => exact (IsFirst.mem h he).1
  | prev =>
    cases p with
    | none => exact h.elim
    | some _ => exact (IsLast.mem h he).1

/-- A call goes to one place. -/
theorem Moves.unique (hinj : Set.InjOn rank S) (h : Moves rank place S p call q)
    (h' : Moves rank place S p call q') : q = q' := by
  have hsep : ∀ P : ε → Prop, Set.InjOn rank {e ∈ S | P e} := fun P =>
    hinj.mono (Set.sep_subset S P)
  cases call with
  | seekToFirst => exact IsFirst.unique hinj h h'
  | seekToLast => exact IsLast.unique hinj h h'
  | seek target => exact IsFirst.unique (hsep _) h h'
  | next =>
    cases p with
    | none => exact h.elim
    | some e => exact IsFirst.unique (hsep _) h h'
  | prev =>
    cases p with
    | none => exact h.elim
    | some e => exact IsLast.unique (hsep _) h h'

/-- Behind the first entry of a part that is closed upwards, the part has all entries. -/
theorem IsFirst.sep_eq {P : ε → Prop} (h : IsFirst rank {x ∈ S | P x} (some e)) (hT : T ⊆ S)
    (hP : ∀ x y, P x → rank x ≤ rank y → P y) :
    {x ∈ T | P x} = {x ∈ T | rank e ≤ rank x} := by
  ext x
  exact and_congr_right fun hx => ⟨fun hPx => h.2 x ⟨hT hx, hPx⟩, hP e x h.1.2⟩

/-- Before the last entry of a part that is closed downwards, the part has all entries. -/
theorem IsLast.sep_eq {P : ε → Prop} (h : IsLast rank {x ∈ S | P x} (some e)) (hT : T ⊆ S)
    (hP : ∀ x y, P x → rank y ≤ rank x → P y) :
    {x ∈ T | P x} = {x ∈ T | rank x ≤ rank e} := by
  ext x
  exact and_congr_right fun hx => ⟨fun hPx => h.2 x ⟨hT hx, hPx⟩, hP e x h.1.2⟩

/-! ### The positions of the cursor over a list -/

section Positions

theorem isFirst_seekToFirst (n : ℕ) :
    IsFirst id {j | j < n ∧ True} (if 0 < n then some 0 else none) := by
  split_ifs with hn
  · exact ⟨⟨hn, trivial⟩, fun j _ => Nat.zero_le j⟩
  · exact Set.eq_empty_of_forall_notMem fun j hj => absurd hj.1 (by omega)

theorem isLast_seekToLast (n : ℕ) :
    IsLast id {j | j < n ∧ True} (if 0 < n then some (n - 1) else none) := by
  split_ifs with hn
  · exact ⟨⟨Nat.sub_one_lt_of_lt hn, trivial⟩, fun j hj => Nat.le_sub_one_of_lt hj.1⟩
  · exact Set.eq_empty_of_forall_notMem fun j hj => absurd hj.1 (by omega)

theorem isFirst_findIdx? (f : ε → Bool) (entries : List ε) :
    IsFirst id {j | j < entries.length ∧ ∀ e ∈ entries[j]?, f e = true} (entries.findIdx? f) := by
  rcases hi : entries.findIdx? f with _ | i
  · refine Set.eq_empty_of_forall_notMem fun j hj => ?_
    have hnone := findIdx?_eq_none_iff.mp hi _ (getElem_mem hj.1)
    exact absurd (hj.2 _ (getElem?_eq_getElem hj.1)) (Bool.eq_false_iff.mp hnone)
  · obtain ⟨hlt, hf, hbefore⟩ := findIdx?_eq_some_iff_getElem.mp hi
    refine ⟨⟨hlt, fun e he => ?_⟩, fun j hj => not_lt.mp fun hji =>
      hbefore j hji (hj.2 _ (getElem?_eq_getElem hj.1))⟩
    rwa [← Option.some.inj ((getElem?_eq_getElem hlt).symm.trans he)]

theorem isFirst_next (n i : ℕ) :
    IsFirst id {j | j < n ∧ i < j} (if i + 1 < n then some (i + 1) else none) := by
  split_ifs with hi
  · exact ⟨⟨hi, Nat.lt_succ_self i⟩, fun j hj => hj.2⟩
  · exact Set.eq_empty_of_forall_notMem fun j hj => hi (lt_of_le_of_lt hj.2 hj.1)

theorem isLast_prev {n i : ℕ} (hi : i < n) :
    IsLast id {j | j < n ∧ j < i} (if 0 < i then some (i - 1) else none) := by
  split_ifs with hpos
  · exact ⟨⟨(Nat.sub_le i 1).trans_lt hi, Nat.sub_one_lt_of_lt hpos⟩,
      fun j hj => Nat.le_sub_one_of_lt hj.2⟩
  · exact Set.eq_empty_of_forall_notMem fun j hj => hpos (Nat.zero_lt_of_lt hj.2)

end Positions

/-! ### The cursor over a sorted list moves so -/

section Sorted

variable (hsort : entries.Pairwise fun a b => rank a < rank b) {i j : ℕ} {a b : ε}
include hsort

theorem rank_lt_of_lt (hi : entries[i]? = some a) (hj : entries[j]? = some b) (hij : i < j) :
    rank a < rank b := by
  obtain ⟨hlti, rfl⟩ := List.getElem?_eq_some_iff.mp hi
  obtain ⟨hltj, rfl⟩ := List.getElem?_eq_some_iff.mp hj
  exact pairwise_iff_getElem.mp hsort i j hlti hltj hij

theorem rank_le_of_le (hi : entries[i]? = some a) (hj : entries[j]? = some b) (hij : i ≤ j) :
    rank a ≤ rank b := by
  rcases hij.eq_or_lt with rfl | hlt
  · rw [Option.some.inj (hi.symm.trans hj)]
  · exact (rank_lt_of_lt hsort hi hj hlt).le

theorem lt_of_rank_lt (hi : entries[i]? = some a) (hj : entries[j]? = some b)
    (hlt : rank a < rank b) : i < j := by
  by_contra hle
  exact absurd (rank_le_of_le hsort hj hi (not_lt.mp hle)) (not_le.mpr hlt)

theorem injOn_rank : Set.InjOn rank {e | e ∈ entries} := by
  intro a ha b hb hab
  obtain ⟨i, hi⟩ := mem_iff_getElem?.mp ha
  obtain ⟨j, hj⟩ := mem_iff_getElem?.mp hb
  rcases lt_trichotomy i j with hij | rfl | hij
  · exact absurd hab (rank_lt_of_lt hsort hi hj hij).ne
  · exact Option.some.inj (hi.symm.trans hj)
  · exact absurd hab (rank_lt_of_lt hsort hj hi hij).ne'

omit hsort in
/-- The entry at the first position of a part of the list, in an order of the positions that the
ranks follow. -/
private theorem isFirst_entryAt {κ' : Type*} [LinearOrder κ'] {pos : ℕ → κ'} {P : ε → Prop}
    {Q : ℕ → Prop} {p : Option ℕ}
    (hrank : ∀ {i j a b}, entries[i]? = some a → entries[j]? = some b → pos i ≤ pos j →
      rank a ≤ rank b)
    (hPQ : ∀ {j e}, entries[j]? = some e → (P e ↔ Q j))
    (h : IsFirst pos {j | j < entries.length ∧ Q j} p) :
    IsFirst rank {e | e ∈ entries ∧ P e} (entryAt entries p) := by
  have hpos : ∀ {e}, e ∈ entries → P e → ∃ j ∈ {j | j < entries.length ∧ Q j},
      entries[j]? = some e := fun he hPe => by
    obtain ⟨j, hj⟩ := mem_iff_getElem?.mp he
    exact ⟨j, ⟨(List.getElem?_eq_some_iff.mp hj).1, (hPQ hj).mp hPe⟩, hj⟩
  cases p with
  | none =>
    refine Set.eq_empty_of_forall_notMem fun e he => ?_
    obtain ⟨j, hj, -⟩ := hpos he.1 he.2
    exact h.notMem_of_none hj
  | some i =>
    have hlt : i < entries.length := h.1.1
    have hi : entries[i]? = some entries[i] := getElem?_eq_getElem hlt
    rw [entryAt, Option.bind_some, hi]
    refine ⟨⟨getElem_mem hlt, (hPQ hi).mpr h.1.2⟩, fun e' he' => ?_⟩
    obtain ⟨j, hj, he'⟩ := hpos he'.1 he'.2
    exact hrank hi he' (h.2 j hj)

private theorem isLast_entryAt {P : ε → Prop} {Q : ℕ → Prop} {p : Option ℕ}
    (hPQ : ∀ {j e}, entries[j]? = some e → (P e ↔ Q j))
    (h : IsLast id {j | j < entries.length ∧ Q j} p) :
    IsLast rank {e | e ∈ entries ∧ P e} (entryAt entries p) :=
  isFirst_toDual.mp (isFirst_entryAt (fun hi hj hji => rank_le_of_le hsort hj hi hji) hPQ
    (isFirst_toDual.mpr h))

/-- **A call on the cursor over a sorted list.** -/
theorem moves_listStep (hr : ∀ t e, reaches t e = true ↔ place t ≤ rank e) {p : Option ℕ}
    (hp : ∀ i ∈ p, i < entries.length) (hall : call.Allowed p) :
    Moves rank place {e | e ∈ entries} (entryAt entries p) call
      (entryAt entries (listStep reaches entries p call)) := by
  have hfst : ∀ {P : ε → Prop} {Q : ℕ → Prop} {p : Option ℕ},
      (∀ {j e}, entries[j]? = some e → (P e ↔ Q j)) →
      IsFirst id {j | j < entries.length ∧ Q j} p →
        IsFirst rank {e | e ∈ entries ∧ P e} (entryAt entries p) :=
    isFirst_entryAt (rank_le_of_le hsort)
  have hall' : ({e | e ∈ entries} : Set ε) = {e | e ∈ entries ∧ True} := by simp
  have hlt : ∀ {i j a b}, entries[i]? = some a → entries[j]? = some b →
      (rank a < rank b ↔ i < j) := fun hi hj =>
    ⟨lt_of_rank_lt hsort hi hj, rank_lt_of_lt hsort hi hj⟩
  cases call with
  | seekToFirst => exact hall' ▸ hfst (fun _ => Iff.rfl) (isFirst_seekToFirst _)
  | seekToLast => exact hall' ▸ isLast_entryAt hsort (fun _ => Iff.rfl) (isLast_seekToLast _)
  | seek target => exact hfst (fun hj => by simp [← hr, hj]) (isFirst_findIdx? _ _)
  | next =>
    obtain ⟨i, rfl⟩ := Option.isSome_iff_exists.mp hall
    have hi := getElem?_eq_getElem (hp i rfl)
    rw [entryAt, Option.bind_some, hi]
    exact hfst (hlt hi) (isFirst_next _ i)
  | prev =>
    obtain ⟨i, rfl⟩ := Option.isSome_iff_exists.mp hall
    have hi := getElem?_eq_getElem (hp i rfl)
    rw [entryAt, Option.bind_some, hi]
    exact isLast_entryAt hsort (fun hj => hlt hj hi) (isLast_prev (hp i rfl))

end Sorted

/-! ### How many entries are left -/

section Left

variable (rank) (entries) in
/-- The number of entries that are not before an entry. -/
def entriesFrom (e : ε) : ℕ := entries.countP fun e' => decide (rank e ≤ rank e')

variable (rank) (entries) in
/-- The number of entries that are not behind an entry. -/
def entriesTo (e : ε) : ℕ := entries.countP fun e' => decide (rank e' ≤ rank e)

/-- Fewer entries satisfy a stronger predicate that one entry tells apart. -/
theorem countP_lt {P Q : ε → Bool} (hQP : ∀ x, Q x = true → P x = true) {x : ε}
    (hx : x ∈ entries) (hP : P x = true) (hQ : Q x = false) :
    entries.countP Q < entries.countP P := by
  induction entries with
  | nil => cases hx
  | cons y entries ih =>
    have hle : entries.countP Q ≤ entries.countP P := countP_mono_left fun z _ => hQP z
    rw [countP_cons, countP_cons]
    rcases mem_cons.mp hx with rfl | hx
    · rw [hP, hQ]
      simp only [if_true, Bool.false_eq_true, if_false]
      omega
    · have hlt := ih hx
      rcases hQy : Q y with _ | _
      · simp only [Bool.false_eq_true, if_false]
        omega
      · rw [hQP y hQy]
        omega

variable {e' : ε}

theorem entriesFrom_lt (he : e ∈ entries) (hlt : rank e < rank e') :
    entriesFrom rank entries e' < entriesFrom rank entries e := by
  refine countP_lt (fun x hx => ?_) he (decide_eq_true le_rfl) (decide_eq_false (not_le.mpr hlt))
  exact decide_eq_true (hlt.le.trans (of_decide_eq_true hx))

theorem entriesTo_lt (he : e ∈ entries) (hlt : rank e' < rank e) :
    entriesTo rank entries e' < entriesTo rank entries e := by
  refine countP_lt (fun x hx => ?_) he (decide_eq_true le_rfl) (decide_eq_false (not_le.mpr hlt))
  exact decide_eq_true ((of_decide_eq_true hx).trans hlt.le)

theorem entriesFrom_pos (he : e ∈ entries) : 0 < entriesFrom rank entries e :=
  countP_pos_iff.mpr ⟨e, he, decide_eq_true le_rfl⟩

theorem entriesFrom_le_length (e : ε) : entriesFrom rank entries e ≤ entries.length :=
  countP_le_length

theorem entriesTo_le_length (e : ε) : entriesTo rank entries e ≤ entries.length := countP_le_length

end Left

/-! ### Lawful iterators -/

theorem listStep_lt {p : Option ℕ} (hp : ∀ i ∈ p, i < entries.length) (call : Call τ) :
    ∀ i ∈ listStep reaches entries p call, i < entries.length := by
  intro i hi
  cases call with
  | seekToFirst => exact ((isFirst_seekToFirst _).mem hi).1
  | seekToLast => exact ((isLast_seekToLast _).mem hi).1
  | seek target => exact ((isFirst_findIdx? _ _).mem hi).1
  | next =>
    cases p with
    | none => cases hi
    | some j => exact ((isFirst_next _ j).mem hi).1
  | prev =>
    cases p with
    | none => cases hi
    | some j => exact ((isLast_prev (hp j rfl)).mem hi).1

theorem allowed_entryAt {p : Option ℕ} (hp : ∀ i ∈ p, i < entries.length) :
    call.Allowed (entryAt entries p) ↔ call.Allowed p := by
  have hsome : (entryAt entries p).isSome = p.isSome := by
    cases p with
    | none => rfl
    | some i => simp [entryAt, hp i rfl]
  cases call <;> simp [Call.Allowed, hsome]

/-- **An iterator that simulates the cursor over a list is lawful.** Its states are related to
positions in the list. -/
theorem lawful_of_simulates (At : σ → Option ℕ → Prop)
    (hshows : ∀ {s p}, At s p → Shows s (entryAt entries p))
    (hstep : ∀ {s p call}, At s p → (∀ i ∈ p, i < entries.length) → call.Allowed p →
      ∃ s', step s call = some s' ∧ At s' (listStep reaches entries p call))
    {s : σ} (hs : At s none) : Lawful step Shows reaches entries s := by
  suffices hgo : ∀ calls p s, (∀ i ∈ p, i < entries.length) → At s p →
      Runs.Along (listStep reaches entries) (fun p call => call.Allowed p) p calls →
      ∃ s', calls.foldlM step s = some s' ∧
        Shows s' (entryAt entries (Runs.run (listStep reaches entries) p calls)) from
    fun calls hc => hgo calls none s (fun _ hi => by cases hi) hs hc
  intro calls
  induction calls with
  | nil => exact fun p s _ hat _ => ⟨s, rfl, hshows hat⟩
  | cons call calls ih =>
    intro p s hp hat hc
    obtain ⟨s', hmove, hat'⟩ := hstep hat hp hc.1
    obtain ⟨s'', hrun, hshown⟩ := ih _ s' (listStep_lt hp call) hat' hc.2
    exact ⟨s'', by simp [foldlM_cons, hmove, hrun], hshown⟩

/-- **An iterator that moves like a cursor is lawful.** -/
theorem Tracks.lawful (h : Tracks rank place step Shows {e | e ∈ entries} At)
    (hsort : entries.Pairwise fun a b => rank a < rank b)
    (hr : ∀ t e, reaches t e = true ↔ place t ≤ rank e) {s : σ} (hs : At s none) :
    Lawful step Shows reaches entries s := by
  refine lawful_of_simulates (fun s p => At s (entryAt entries p)) (fun hat => h.shows hat) ?_ hs
  intro s p call hat hp hallowed
  obtain ⟨s', q, hstep, hat', hmoves⟩ := h.moves hat ((allowed_entryAt hp).mpr hallowed)
  obtain rfl : q = _ := hmoves.unique (injOn_rank hsort) (moves_listStep hsort hr hp hallowed)
  exact ⟨s', hstep, hat'⟩

/-- The states may be taken to be at entries of the set only. -/
theorem Tracks.inSet (h : Tracks rank place step Shows S At) :
    Tracks rank place step Shows S fun s p => At s p ∧ ∀ e ∈ p, e ∈ S where
  shows hat := h.shows hat.1
  moves hat hallowed := by
    obtain ⟨s', q, hstep, hat', hmoves⟩ := h.moves hat.1 hallowed
    exact ⟨s', q, hstep, ⟨hat', fun _ he => hmoves.mem he⟩, hmoves⟩

/-- **A lawful iterator simulates the cursor over the list.** -/
theorem Lawful.simulates {s : σ} (h : Lawful step Shows reaches entries s) :
    ∃ At : σ → Option ℕ → Prop, At s none ∧
      (∀ {s p}, At s p → (∀ i ∈ p, i < entries.length) ∧ Shows s (entryAt entries p)) ∧
      ∀ {s p call}, At s p → call.Allowed p →
        ∃ s', step s call = some s' ∧ At s' (listStep reaches entries p call) := by
  refine ⟨fun s' p => ∃ calls,
    Runs.Along (listStep reaches entries) (fun p call => call.Allowed p) none calls ∧
      calls.foldlM step s = some s' ∧ p = Runs.run (listStep reaches entries) none calls,
    ⟨[], trivial, rfl, rfl⟩, ?_, ?_⟩
  · rintro s' p ⟨calls, hc, hrun, rfl⟩
    obtain ⟨s'', hrun', hshows⟩ := h calls hc
    obtain rfl : s' = s'' := Option.some.inj (hrun.symm.trans hrun')
    refine ⟨?_, hshows⟩
    exact Runs.invariant_of_step (I := fun p => ∀ i ∈ p, i < entries.length)
      (fun p call hp => listStep_lt hp call) fun _ hi => absurd hi (Option.not_mem_none _)
  · rintro s' p call ⟨calls, hc, hrun, rfl⟩ hallowed
    have hmore := Runs.along_concat.mpr ⟨hc, hallowed⟩
    obtain ⟨s'', hrun', -⟩ := h (calls ++ [call]) hmore
    have hstep : step s' call = some s'' := by
      rw [foldlM_append, hrun] at hrun'
      simpa using hrun'
    exact ⟨s'', hstep, calls ++ [call], hmore, hrun', (Runs.run_concat ..).symm⟩

/-- **A lawful iterator moves like a cursor.** -/
theorem Lawful.tracks {s : σ} (h : Lawful step Shows reaches entries s)
    (hsort : entries.Pairwise fun a b => rank a < rank b)
    (hr : ∀ t e, reaches t e = true ↔ place t ≤ rank e) :
    ∃ At, Tracks rank place step Shows {e | e ∈ entries} At ∧ At s none := by
  obtain ⟨At, hstart, hshows, hstep⟩ := h.simulates
  refine ⟨fun s' p => ∃ i, At s' i ∧ p = entryAt entries i, ⟨?_, ?_⟩, none, hstart, rfl⟩
  · rintro s' p ⟨i, hat, rfl⟩
    exact (hshows hat).2
  · rintro s' p call ⟨i, hat, rfl⟩ hallowed
    have hi := (hshows hat).1
    rw [allowed_entryAt hi] at hallowed
    obtain ⟨s'', hmove, hat'⟩ := hstep hat hallowed
    exact ⟨s'', _, hmove, ⟨_, hat', rfl⟩, moves_listStep hsort hr hi hallowed⟩

end Order

end PulsearcDb.Cursor

/-! ### The linear order of a comparison function -/

namespace PulsearcDb

variable {α : Type*} (cmp : α → α → Ordering) [Std.TransCmp cmp]

/-- Values that compare as equal. -/
def rankSetoid : Setoid α where
  r a b := cmp a b = .eq
  iseqv :=
    { refl := fun _ => Std.ReflCmp.compare_self
      symm := Std.OrientedCmp.eq_symm
      trans := Std.TransCmp.eq_trans }

/-- The values, up to those that compare as equal. -/
def Rank : Type _ := Quotient (rankSetoid cmp)

/-- The place of a value. -/
def rank (a : α) : Rank cmp := Quotient.mk (rankSetoid cmp) a

namespace Rank

variable {cmp}

private def le (x y : Rank cmp) : Prop :=
  Quotient.liftOn₂ x y (fun a b => (cmp a b).isLE = true) fun a b a' b' (ha : cmp a a' = .eq)
    (hb : cmp b b' = .eq) => by rw [Std.TransCmp.congr_left ha, Std.TransCmp.congr_right hb]

noncomputable instance : LinearOrder (Rank cmp) where
  le := le
  le_refl := by
    rintro ⟨a⟩
    exact Std.ReflCmp.isLE_rfl
  le_trans := by
    rintro ⟨a⟩ ⟨b⟩ ⟨c⟩ hab hbc
    exact Std.TransCmp.isLE_trans hab hbc
  le_antisymm := by
    rintro ⟨a⟩ ⟨b⟩ hab hba
    exact Quotient.sound (Std.OrientedCmp.isLE_antisymm hab hba)
  le_total := by
    rintro ⟨a⟩ ⟨b⟩
    have hswap : cmp b a = (cmp a b).swap := Std.OrientedCmp.eq_swap
    change (cmp a b).isLE = true ∨ (cmp b a).isLE = true
    rw [hswap]
    cases cmp a b <;> simp
  toDecidableLE := Classical.decRel _

end Rank

variable {cmp} {a b : α}

theorem rank_le_rank : rank cmp a ≤ rank cmp b ↔ (cmp a b).isLE = true := Iff.rfl

theorem rank_lt_rank : rank cmp a < rank cmp b ↔ cmp a b = .lt := by
  rw [← not_le, rank_le_rank, Ordering.isLE_iff_ne_gt, not_not, Std.OrientedCmp.gt_iff_lt]

theorem rank_eq_rank : rank cmp a = rank cmp b ↔ cmp a b = .eq :=
  ⟨fun h => Quotient.exact h, fun h => Quotient.sound h⟩

end PulsearcDb
