import Mathlib.Data.List.Nodup
import Mathlib.Order.Basic

/-!
# Chains of links that skip

The nodes of a list have heights, and a node has a link at every level below its height. The link of
a level leads to the first node behind that is taller than the level, so that the links of a level
run through exactly the nodes that are taller (`follow_eq_filter`).

A new node is spliced in by changing, at every level below its height, the link of the last node in
front of it that is taller than the level (`Linked.splice`).
-/

namespace PulsearcDb.SkipChains

open List

variable {ν : Type*} (height : ν → ℕ)

/-- The first node of a list that is taller than a level. -/
def firstTaller (level : ℕ) (l : List ν) : Option ν := l.find? fun x => level < height x

/-- The last node of a list that is taller than a level. -/
def lastTaller (level : ℕ) (l : List ν) : Option ν :=
  (l.filter fun x => level < height x).getLast?

/-- Every link leads to the first node behind that is taller than its level. -/
def Linked (link : ν → ℕ → Option ν) : List ν → Prop
  | [] => True
  | x :: rest =>
    (∀ level < height x, link x level = firstTaller height level rest) ∧ Linked link rest

/-- The nodes that are reached by following links, if there are fewer of them than `rounds`. -/
def follow (next : ν → Option ν) : ℕ → ν → Option (List ν)
  | 0, _ => none
  | rounds + 1, x =>
    match next x with
    | none => some []
    | some y => (follow next rounds y).map (y :: ·)

variable {height} {link link' : ν → ℕ → Option ν} {level : ℕ} {l front back rest : List ν}
  {x y n : ν}

/-! ### The nearest taller nodes -/

theorem firstTaller_append (l m : List ν) :
    firstTaller height level (l ++ m) =
      (firstTaller height level l).or (firstTaller height level m) :=
  find?_append

theorem firstTaller_cons_of_lt (h : level < height x) (l : List ν) :
    firstTaller height level (x :: l) = some x := by
  simp [firstTaller, h]

theorem firstTaller_cons_of_le (h : height x ≤ level) (l : List ν) :
    firstTaller height level (x :: l) = firstTaller height level l := by
  simp [firstTaller, Nat.not_lt.mpr h]

theorem mem_of_firstTaller (h : firstTaller height level l = some x) :
    x ∈ l ∧ level < height x := by
  have htaller := find?_some h
  exact ⟨mem_of_find?_eq_some h, by simpa using htaller⟩

theorem firstTaller_eq_none : firstTaller height level l = none ↔ ∀ x ∈ l, height x ≤ level := by
  simp [firstTaller]

theorem lastTaller_append (l m : List ν) :
    lastTaller height level (l ++ m) =
      (lastTaller height level m).or (lastTaller height level l) := by
  rw [lastTaller, filter_append, getLast?_append]
  rfl

theorem lastTaller_eq_none : lastTaller height level l = none ↔ ∀ x ∈ l, height x ≤ level := by
  simp [lastTaller]

theorem lastTaller_singleton (h : level < height x) : lastTaller height level [x] = some x := by
  simp [lastTaller, h]

theorem mem_of_lastTaller (h : lastTaller height level l = some x) : x ∈ l ∧ level < height x := by
  have hmem := mem_of_getLast? h
  rw [mem_filter, decide_eq_true_eq] at hmem
  exact hmem

/-- The last taller node of a list that starts with a taller node. -/
theorem lastTaller_cons (h : level < height x) (l : List ν) :
    lastTaller height level (x :: l) = (lastTaller height level l).or (some x) := by
  rw [← singleton_append, lastTaller_append, lastTaller_singleton h]

theorem lastTaller_cons_of_le (h : height x ≤ level) (l : List ν) :
    lastTaller height level (x :: l) = lastTaller height level l := by
  rw [lastTaller, filter_cons_of_neg (by simpa using h), lastTaller]

section Congr

variable {height' : ν → ℕ} (hh : ∀ x ∈ l, height' x = height x)

include hh

private theorem filter_congr_height :
    l.filter (fun x => level < height' x) = l.filter fun x => level < height x :=
  filter_congr fun x hx => by rw [hh x hx]

theorem firstTaller_congr : firstTaller height' level l = firstTaller height level l := by
  rw [firstTaller, firstTaller, ← head?_filter, ← head?_filter, filter_congr_height hh]

theorem lastTaller_congr : lastTaller height' level l = lastTaller height level l := by
  rw [lastTaller, lastTaller, filter_congr_height hh]

end Congr

/-! ### Links -/

/-- Links and heights count only at the nodes of the list. -/
theorem Linked.congr {height' : ν → ℕ} (h : Linked height link l)
    (hh : ∀ x ∈ l, height' x = height x)
    (hlink : ∀ x ∈ l, ∀ level < height x, link' x level = link x level) :
    Linked height' link' l := by
  induction l with
  | nil => exact trivial
  | cons x rest ih =>
    obtain ⟨hx, hrest⟩ := forall_mem_cons.mp hh
    obtain ⟨hlinkX, hlinkRest⟩ := forall_mem_cons.mp hlink
    refine ⟨fun level hlev => ?_, ih h.2 hrest hlinkRest⟩
    rw [hx] at hlev
    rw [hlinkX level hlev, h.1 level hlev, firstTaller_congr hrest]

theorem Linked.of_append (h : Linked height link (front ++ back)) : Linked height link back := by
  induction front with
  | nil => exact h
  | cons x front ih => exact ih h.2

/-- The link of a node of the list. -/
theorem Linked.link_eq (h : Linked height link (front ++ x :: rest)) (hlev : level < height x) :
    link x level = firstTaller height level rest :=
  h.of_append.1 level hlev

/-- The last taller node in front of a place leads behind it. -/
theorem Linked.link_lastTaller (h : Linked height link (front ++ back))
    (hlast : lastTaller height level front = some x) :
    link x level = firstTaller height level back := by
  induction front with
  | nil => cases hlast
  | cons y front ih =>
    rw [cons_append] at h
    rcases hf : lastTaller height level front with _ | z
    · by_cases hy : level < height y
      · rw [lastTaller_cons hy, hf] at hlast
        obtain rfl : y = x := Option.some.inj hlast
        rw [h.1 level hy, firstTaller_append, firstTaller_eq_none.mpr (lastTaller_eq_none.mp hf)]
        rfl
      · rw [lastTaller_cons_of_le (Nat.not_lt.mp hy), hf] at hlast
        cases hlast
    · refine ih h.2 ?_
      by_cases hy : level < height y
      · rw [lastTaller_cons hy, hf] at hlast
        rw [hf]
        exact hlast
      · rwa [lastTaller_cons_of_le (Nat.not_lt.mp hy)] at hlast

/-- **The links of a level run through the taller nodes.** -/
theorem Linked.follow_eq_filter (h : Linked height link (x :: l)) (hx : level < height x)
    {rounds : ℕ} (hrounds : l.length < rounds) :
    follow (link · level) rounds x = some (l.filter fun y => level < height y) := by
  induction rounds generalizing x l with
  | zero => exact absurd hrounds (Nat.not_lt_zero _)
  | succ rounds ih =>
    rw [follow, h.1 level hx]
    rcases hfst : firstTaller height level l with _ | y
    · have hshort := firstTaller_eq_none.mp hfst
      rw [filter_eq_nil_iff.mpr fun z hz => by simpa using hshort z hz]
    · -- The nodes in front of the next one are not taller than the level.
      obtain ⟨hy, skipped, rest, rfl, hskipped⟩ := find?_eq_some_iff_append.mp hfst
      have hlinked : Linked height link (y :: rest) := h.2.of_append
      have hlen : rest.length < rounds := by
        simp only [length_append, length_cons] at hrounds
        omega
      have hshort : skipped.filter (fun z => level < height z) = [] :=
        filter_eq_nil_iff.mpr fun z hz => by simpa using hskipped z hz
      have hy : level < height y := by simpa using hy
      rw [filter_append, hshort, nil_append, filter_cons_of_pos (by simpa using hy)]
      simp only [ih hlinked hy hlen, Option.map_some]

/-- **A node is spliced in.** At the levels below its height its links lead behind it, and the links
of the last taller nodes in front of it lead to it; all other links stay. -/
theorem Linked.splice (h : Linked height link (front ++ back)) (hnodup : (front ++ back).Nodup)
    (hnew : ∀ level < height n, link' n level = firstTaller height level back)
    (hlast : ∀ level < height n, ∀ x, lastTaller height level front = some x →
      link' x level = some n)
    (hother : ∀ x ∈ front ++ back, ∀ level,
      (level < height n → lastTaller height level front ≠ some x) → link' x level = link x level) :
    Linked height link' (front ++ n :: back) := by
  induction front with
  | nil =>
    refine ⟨hnew, h.congr (fun _ _ => rfl) fun x hx level _ => hother x hx level fun _ => ?_⟩
    simp [lastTaller]
  | cons x front ih =>
    obtain ⟨hx, hnodup⟩ := nodup_cons.mp hnodup
    rw [cons_append] at h ⊢
    refine ⟨fun level hlev => ?_, ih h.2 hnodup (fun level hn y hy => ?_) fun y hy level hne => ?_⟩
    · have hold := h.1 level hlev
      by_cases hn : level < height n
      · rcases hf : lastTaller height level front with _ | y
        · have hnone := firstTaller_eq_none.mpr (lastTaller_eq_none.mp hf)
          rw [hlast level hn x (by rw [lastTaller_cons hlev, hf]; rfl), firstTaller_append,
            hnone, firstTaller_cons_of_lt hn]
          rfl
        · have hy := mem_of_lastTaller hf
          rw [hother x mem_cons_self level fun _ => ?_, hold, firstTaller_append,
            firstTaller_append]
          · rcases hfst : firstTaller height level front with _ | z
            · exact absurd (firstTaller_eq_none.mp hfst y hy.1) (Nat.not_le.mpr hy.2)
            · rfl
          · rw [lastTaller_cons hlev, hf]
            rintro heq
            obtain rfl : y = x := Option.some.inj heq
            exact hx (mem_append_left _ hy.1)
      · rw [hother x mem_cons_self level fun hlt => absurd hlt hn, hold, firstTaller_append,
          firstTaller_append, firstTaller_cons_of_le (Nat.not_lt.mp hn)]
    · refine hlast level hn y ?_
      by_cases hlev : level < height x
      · rw [lastTaller_cons hlev, hy]
        rfl
      · rwa [lastTaller_cons_of_le (Nat.not_lt.mp hlev)]
    · refine hother y (mem_cons_of_mem x hy) level fun hn heq => hne hn ?_
      by_cases hlev : level < height x
      · rw [lastTaller_cons hlev] at heq
        rcases hf : lastTaller height level front with _ | z
        · rw [hf] at heq
          obtain rfl : x = y := Option.some.inj heq
          exact absurd hy hx
        · rw [hf] at heq
          exact heq
      · rwa [lastTaller_cons_of_le (Nat.not_lt.mp hlev)] at heq

end PulsearcDb.SkipChains
