import Mathlib.Data.Set.BooleanAlgebra
import Mathlib.Order.CompletePartialOrder

/-!
# Multi-version stores

A multi-version store is a set of entries, each with a key and a sequence number. A read of a key
at a sequence number sees the newest entry of that key that is not newer than the sequence number.
An entry either carries a value or marks its key as deleted, and the reader is told the value or
that there is none.

The store is searched layer by layer and the search stops at the first layer that answers. That is
right as long as every layer *shadows* the layers below it: for a common key its entries are newer
(`Answers.orElse`). A store is also rewritten, some of its entries being dropped; the reads that
may still happen do not change when the newest entries among those given up were deletion marks
with nothing older left below them (`Reads.of_dropped`).
-/

namespace PulsearcDb.Recency

variable {ε κ ν : Type*} (key : ε → κ) (seq : ε → ℕ)

/-- `e` is the newest entry of `k` in the store that a read at `s` may see. -/
def IsNewest (E : Set ε) (k : κ) (s : ℕ) (e : ε) : Prop :=
  e ∈ E ∧ key e = k ∧ seq e ≤ s ∧ ∀ e' ∈ E, key e' = k → seq e' ≤ s → seq e' ≤ seq e

/-- The store has no entry of `k` that a read at `s` may see. -/
def Hidden (E : Set ε) (k : κ) (s : ℕ) : Prop := ∀ e ∈ E, key e = k → ¬ seq e ≤ s

/-- The answer of a search: the newest visible entry, or nothing. -/
def Answers (E : Set ε) (k : κ) (s : ℕ) : Option ε → Prop
  | some e => IsNewest key seq E k s e
  | none => Hidden key seq E k s

/-- For a common key the entries of `A` are newer than those of `B`. -/
def Shadows (A B : Set ε) : Prop := ∀ a ∈ A, ∀ b ∈ B, key a = key b → seq b < seq a

/-- A key has at most one entry with a given sequence number. -/
def OnePerSequence (E : Set ε) : Prop :=
  ∀ e ∈ E, ∀ e' ∈ E, key e = key e' → seq e = seq e' → e = e'

variable {key seq} {A B C E : Set ε} {k : κ} {s : ℕ} {o o' : Option ε}

theorem Hidden.mono (h : Hidden key seq B k s) (hAB : A ⊆ B) : Hidden key seq A k s :=
  fun e he => h e (hAB he)

theorem Hidden.union (hA : Hidden key seq A k s) (hB : Hidden key seq B k s) :
    Hidden key seq (A ∪ B) k s := fun e he => he.elim (hA e) (hB e)

/-- Two answers to one read agree when no key has two entries with one sequence number. -/
theorem Answers.unique (hE : OnePerSequence key seq E) (h : Answers key seq E k s o)
    (h' : Answers key seq E k s o') : o = o' := by
  cases o with
  | none =>
    cases o' with
    | none => rfl
    | some e' => exact absurd h'.2.2.1 (h e' h'.1 h'.2.1)
  | some e =>
    cases o' with
    | none => exact absurd h.2.2.1 (h' e h.1 h.2.1)
    | some e' =>
      have hle := h.2.2.2 e' h'.1 h'.2.1 h'.2.2.1
      have hge := h'.2.2.2 e h.1 h.2.1 h.2.2.1
      rw [hE e h.1 e' h'.1 (h.2.1.trans h'.2.1.symm) (le_antisymm hge hle)]

theorem OnePerSequence.union (hAB : Shadows key seq A B) (hA : OnePerSequence key seq A)
    (hB : OnePerSequence key seq B) : OnePerSequence key seq (A ∪ B) := by
  rintro e (he | he) e' (he' | he') hk hs
  · exact hA e he e' he' hk hs
  · exact absurd hs (hAB e he e' he' hk).ne'
  · exact absurd hs.symm (hAB e' he' e he hk.symm).ne'
  · exact hB e he e' he' hk hs

/-- A layer without a visible entry does not matter. -/
theorem Answers.union_hidden (hA : Hidden key seq A k s) (hB : Answers key seq B k s o) :
    Answers key seq (A ∪ B) k s o := by
  cases o with
  | none => exact Hidden.union hA hB
  | some e =>
    refine ⟨Or.inr hB.1, hB.2.1, hB.2.2.1, ?_⟩
    rintro e' (he' | he') hk hs
    · exact absurd hs (hA e' he' hk)
    · exact hB.2.2.2 e' he' hk hs

/-- **The search stops at the first layer that answers.** It has to shadow what the next layer has
more. -/
theorem Answers.orElse (hAB : Shadows key seq A (B \ A)) (hA : Answers key seq A k s o)
    (hB : Answers key seq B k s o') : Answers key seq (A ∪ B) k s (o.or o') := by
  cases o with
  | none => exact hB.union_hidden hA
  | some e =>
    refine ⟨Or.inl hA.1, hA.2.1, hA.2.2.1, ?_⟩
    intro e' he' hk hs
    by_cases heA : e' ∈ A
    · exact hA.2.2.2 e' heA hk hs
    · exact (hAB e hA.1 e' ⟨he'.resolve_left heA, heA⟩ (hA.2.1.trans hk.symm)).le

/-- **A search through many layers.** Of each layer at most one part is asked, and what it answers
is the answer of its layer. -/
theorem answers_filterMap {ι φ : Type*} {layer : ι → Set ε} {ask : ι → Option φ}
    {answer : φ → Option ε} {layers : List ι}
    (hshadows : layers.Pairwise fun i j => Shadows key seq (layer i) (layer j \ layer i))
    (h : ∀ i ∈ layers, Answers key seq (layer i) k s ((ask i).bind answer)) :
    Answers key seq {e | ∃ i ∈ layers, e ∈ layer i} k s
      ((layers.filterMap ask).findSome? answer) := by
  induction layers with
  | nil => exact fun e he => by simp at he
  | cons i layers ih =>
    obtain ⟨hi, hshadows⟩ := List.pairwise_cons.mp hshadows
    obtain ⟨hfst, h⟩ := List.forall_mem_cons.mp h
    have hunion : {e | ∃ j ∈ i :: layers, e ∈ layer j} =
        layer i ∪ {e | ∃ j ∈ layers, e ∈ layer j} := by
      ext e
      simp
    have hfind : ((i :: layers).filterMap ask).findSome? answer =
        ((ask i).bind answer).or ((layers.filterMap ask).findSome? answer) := by
      rcases hask : ask i with _ | f
      · simp [hask]
      · rcases hf : answer f with _ | e <;> simp [hask, hf]
    rw [hunion, hfind]
    refine hfst.orElse ?_ (ih hshadows h)
    rintro a ha b ⟨⟨j, hj, hb⟩, hbi⟩
    exact hi j hj a ha b ⟨hb, hbi⟩

theorem Shadows.union_right (hA : Shadows key seq C A) (hB : Shadows key seq C B) :
    Shadows key seq C (A ∪ B) := by
  rintro c hc b (hb | hb)
  · exact hA c hc b hb
  · exact hB c hc b hb

theorem Shadows.mono {A' B' : Set ε} (h : Shadows key seq A B) (hA : A' ⊆ A) (hB : B' ⊆ B) :
    Shadows key seq A' B' := fun a ha b hb => h a (hA ha) b (hB hb)

theorem Shadows.disjoint (h : Shadows key seq A B) : Disjoint A B :=
  Set.disjoint_left.mpr fun e ha hb => lt_irrefl _ (h e ha e hb rfl)

/-- Without copies a layer shadows all of the other one. -/
theorem Shadows.of_disjoint (h : Shadows key seq A (B \ A)) (hAB : Disjoint A B) :
    Shadows key seq A B :=
  fun a ha b hb => h a ha b ⟨hb, Set.disjoint_right.mp hAB hb⟩

/-! ### What a reader is told -/

/-- The reader of `k` at `s` is told `r`, the value of the newest visible entry if it has one. -/
def Reads (key : ε → κ) (seq : ε → ℕ) (live : ε → Option ν) (E : Set ε) (k : κ) (s : ℕ)
    (r : Option ν) : Prop :=
  ∃ o, Answers key seq E k s o ∧ o.bind live = r

variable {live : ε → Option ν} {r : Option ν}

theorem Reads.unique {r' : Option ν} (hE : OnePerSequence key seq E)
    (h : Reads key seq live E k s r) (h' : Reads key seq live E k s r') : r = r' := by
  obtain ⟨o, ho, rfl⟩ := h
  obtain ⟨o', ho', rfl⟩ := h'
  rw [ho.unique hE ho']

/-- The reader of `k` is told `r`, the value of the newest entry of the store if it has one. -/
def ReadsLatest (key : ε → κ) (seq : ε → ℕ) (live : ε → Option ν) (E : Set ε) (k : κ)
    (r : Option ν) : Prop :=
  (∃ e ∈ E, key e = k ∧ (∀ e' ∈ E, key e' = k → seq e' ≤ seq e) ∧ live e = r) ∨
    ((∀ e ∈ E, key e ≠ k) ∧ r = none)

/-- A read that may see the whole store is told the latest. -/
theorem Reads.latest (hE : ∀ e ∈ E, seq e ≤ s) (h : Reads key seq live E k s r) :
    ReadsLatest key seq live E k r := by
  obtain ⟨o, ho, rfl⟩ := h
  cases o with
  | none => exact .inr ⟨fun e he hk => ho e he hk (hE e he), rfl⟩
  | some e => exact .inl ⟨e, ho.1, ho.2.1, fun e' he' hk => ho.2.2.2 e' he' hk (hE e' he'), rfl⟩

theorem ReadsLatest.unique {r' : Option ν} (hE : OnePerSequence key seq E)
    (h : ReadsLatest key seq live E k r) (h' : ReadsLatest key seq live E k r') : r = r' := by
  rcases h with ⟨e, he, hk, hmax, rfl⟩ | ⟨hnone, rfl⟩
  · rcases h' with ⟨e', he', hk', hmax', rfl⟩ | ⟨hnone, -⟩
    · have hseq : seq e = seq e' := le_antisymm (hmax' e he hk) (hmax e' he' hk')
      rw [hE e he e' he' (hk.trans hk'.symm) hseq]
    · exact absurd hk (hnone e he)
  · rcases h' with ⟨e', he', hk', -⟩ | ⟨-, rfl⟩
    · exact absurd hk' (hnone e' he')
    · rfl

/-- A new entry is the latest of its key, and nothing changes for the other keys. -/
theorem ReadsLatest.insert {e : ε} (hnew : ∀ e' ∈ E, seq e' < seq e)
    (h : key e ≠ k → ReadsLatest key seq live E k r) (hr : key e = k → live e = r) :
    ReadsLatest key seq live (insert e E) k r := by
  by_cases hk : key e = k
  · refine .inl ⟨e, .inl rfl, hk, ?_, hr hk⟩
    rintro e' (rfl | he') -
    · exact le_rfl
    · exact (hnew e' he').le
  · rcases h hk with ⟨e', he', hk', hmax, hlive⟩ | ⟨hnone, hr⟩
    · refine .inl ⟨e', .inr he', hk', ?_, hlive⟩
      rintro e'' (rfl | he'') hk''
      · exact absurd hk'' hk
      · exact hmax e'' he'' hk''
    · refine .inr ⟨?_, hr⟩
      rintro e' (rfl | he')
      · exact hk
      · exact hnone e' he'

/-- **Dropping entries.** Of the entries `M` of a store `M ∪ R` only `K` is kept. A read is told the
same as before if the newest visible entry of `M` is kept, or is a deletion mark such that neither
`K` holds a visible entry of the key nor `R` an older one. -/
theorem Reads.of_dropped {K M R : Set ε} (hK : K ⊆ M)
    (hdrop : ∀ e, IsNewest key seq M k s e → e ∉ K →
      live e = none ∧ Hidden key seq K k s ∧
        ∀ e' ∈ R, key e' = k → seq e' ≤ s → seq e < seq e') (h : Reads key seq live (M ∪ R) k s r) :
    Reads key seq live (K ∪ R) k s r := by
  obtain ⟨o, ho, rfl⟩ := h
  cases o with
  | none => exact ⟨none, Hidden.mono ho (Set.union_subset_union_left R hK), rfl⟩
  | some e =>
    obtain ⟨heE, hk, hs, hmax⟩ := ho
    have hmax' : ∀ e' ∈ K ∪ R, key e' = k → seq e' ≤ s → seq e' ≤ seq e :=
      fun e' he' => hmax e' (Set.union_subset_union_left R hK he')
    by_cases heK : e ∈ K ∪ R
    · exact ⟨some e, ⟨heK, hk, hs, hmax'⟩, rfl⟩
    · have heM : e ∈ M := heE.resolve_right fun h => heK (Or.inr h)
      obtain ⟨hlive, hKh, hRo⟩ := hdrop e
        ⟨heM, hk, hs, fun e' he' => hmax e' (Or.inl he')⟩ fun h => heK (Or.inl h)
      have hRh : Hidden key seq R k s := fun e' he' hk' hs' =>
        absurd (hmax' e' (Or.inr he') hk' hs') (not_le.mpr (hRo e' he' hk' hs'))
      exact ⟨none, hKh.union hRh, hlive.symm⟩

end PulsearcDb.Recency
