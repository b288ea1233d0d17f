import Mathlib.Data.List.Basic

/-!
# Read-through caches

A request is served from a cache when the cache has a value under its key, and is fetched otherwise;
a fetched value is inserted when the request asks for it. The cache may forget what it holds at any
time. A sequence of requests is answered as if there was no cache exactly if a request whose value
may be inserted and a later request with the same key fetch the same value (`transparent_iff`).
-/

namespace PulsearcDb.ReadThrough

open List

/-- A cache with its state: a lookup may change the state, and an insertion has a charge. -/
structure Cache (κ ν σ : Type) where
  lookup : σ → κ → Option ν × σ
  insert : σ → κ → ν → ℕ → σ

/-- How requests are served: their keys, whether they fill the cache, and what they fetch. -/
structure Source (ρ κ ν ε : Type) where
  keyOf : ρ → κ
  fills : ρ → Bool
  fetch : ρ → Except ε ν
  chargeOf : ν → ℕ

variable {κ ν σ ρ ε : Type}

/-- A lookup returns only the value that was last inserted under the key. `Holds` relates a state
of the cache to all that was inserted, the newest first. -/
structure Cache.Lawful [BEq κ] (cache : Cache κ ν σ) (Holds : σ → List (κ × ν) → Prop) : Prop where
  lookup_eq : ∀ {s inserted k v}, Holds s inserted → (cache.lookup s k).1 = some v →
    inserted.lookup k = some v
  holds_lookup : ∀ {s inserted} k, Holds s inserted → Holds (cache.lookup s k).2 inserted
  holds_insert : ∀ {s inserted} k v charge, Holds s inserted →
    Holds (cache.insert s k v charge) ((k, v) :: inserted)

/-- A request is looked up, and fetched on a miss. -/
def read (cache : Cache κ ν σ) (src : Source ρ κ ν ε) (r : ρ) (s : σ) : Except ε ν × σ :=
  match cache.lookup s (src.keyOf r) with
  | (some v, s) => (.ok v, s)
  | (none, s) =>
    match src.fetch r with
    | .error e => (.error e, s)
    | .ok v =>
      (.ok v, if src.fills r then cache.insert s (src.keyOf r) v (src.chargeOf v) else s)

/-- The answers to a sequence of requests. -/
def readAll (cache : Cache κ ν σ) (src : Source ρ κ ν ε) : List ρ → σ → List (Except ε ν)
  | [], _ => []
  | r :: rest, s => (read cache src r s).1 :: readAll cache src rest (read cache src r s).2

/-- What the cache may hold is what the request fetches. -/
def Agrees [BEq κ] (src : Source ρ κ ν ε) (inserted : List (κ × ν)) (r : ρ) : Prop :=
  ∀ v, inserted.lookup (src.keyOf r) = some v → src.fetch r = .ok v

/-- A value that one request may insert is what another one fetches. -/
def Compatible (src : Source ρ κ ν ε) (r r' : ρ) : Prop :=
  src.keyOf r = src.keyOf r' → src.fills r = true → ∀ v, src.fetch r = .ok v → src.fetch r' = .ok v

/-- A cache that forgets nothing. -/
def unbounded [BEq κ] : Cache κ ν (List (κ × ν)) where
  lookup s k := (s.lookup k, s)
  insert s k v _ := (k, v) :: s

theorem lawful_unbounded [BEq κ] : (unbounded : Cache κ ν (List (κ × ν))).Lawful Eq where
  lookup_eq := by
    rintro s _ k v rfl hlook
    exact hlook
  holds_lookup := fun _ h => h
  holds_insert := by
    rintro s _ k v charge rfl
    rfl

variable [BEq κ] {cache : Cache κ ν σ} {src : Source ρ κ ν ε}
  {Holds : σ → List (κ × ν) → Prop} {inserted : List (κ × ν)} {s : σ} {r : ρ}

/-! ### Requests that agree with the cache -/

/-- One request is answered as fetched, and what it adds to the cache is its own value. -/
theorem read_spec (hl : cache.Lawful Holds) (hh : Holds s inserted) (ha : Agrees src inserted r) :
    (read cache src r s).1 = src.fetch r ∧
      (Holds (read cache src r s).2 inserted ∨
        ∃ v, src.fills r = true ∧ src.fetch r = .ok v ∧
          Holds (read cache src r s).2 ((src.keyOf r, v) :: inserted)) := by
  have hlook := @hl.lookup_eq s inserted (src.keyOf r)
  have hafter := hl.holds_lookup (src.keyOf r) hh
  rw [read]
  rcases hres : cache.lookup s (src.keyOf r) with ⟨_ | v, s'⟩
    <;> rw [hres] at hafter hlook
  · rcases hfetch : src.fetch r with e | v
    · exact ⟨rfl, .inl hafter⟩
    · by_cases hf : src.fills r = true
      · refine ⟨rfl, .inr ⟨v, hf, rfl, ?_⟩⟩
        simpa only [hf, if_true] using hl.holds_insert _ v _ hafter
      · refine ⟨rfl, .inl ?_⟩
        simpa only [hf, Bool.false_eq_true, if_false] using hafter
  · exact ⟨(ha v (hlook hh rfl)).symm, .inl hafter⟩

variable [LawfulBEq κ]

/-- A value that was inserted by a request agrees with a compatible one. -/
theorem Agrees.cons {r' : ρ} {v : ν} (ha : Agrees src inserted r')
    (hcompatible : Compatible src r r') (hf : src.fills r = true) (hfetch : src.fetch r = .ok v) :
    Agrees src ((src.keyOf r, v) :: inserted) r' := by
  intro v' hlook
  rw [lookup_cons] at hlook
  split at hlook
  · next hkey =>
      obtain rfl := Option.some.inj hlook
      exact hcompatible (eq_of_beq hkey).symm hf v hfetch
  · exact ha v' hlook

theorem readAll_eq (hl : cache.Lawful Holds) {requests : List ρ}
    (hcompatible : requests.Pairwise (Compatible src)) (hh : Holds s inserted)
    (ha : ∀ r ∈ requests, Agrees src inserted r) :
    readAll cache src requests s = requests.map src.fetch := by
  induction requests generalizing s inserted with
  | nil => rfl
  | cons r rest ih =>
    obtain ⟨hfst, hrest⟩ := pairwise_cons.mp hcompatible
    obtain ⟨hread, hadded⟩ := read_spec hl hh (ha r mem_cons_self)
    have hold := fun r' hr' => ha r' (mem_cons_of_mem r hr')
    rw [readAll, hread, map_cons]
    rcases hadded with hh' | ⟨v, hf, hfetch, hh'⟩
    · rw [ih hrest hh' hold]
    · rw [ih hrest hh' fun r' hr' => (hold r' hr').cons (hfst r' hr') hf hfetch]

/-! ### Requests to a cache that forgets nothing -/

/-- What is in the cache answers every later request of its key. -/
theorem fetch_eq_of_lookup {requests : List ρ} {s : List (κ × ν)} {v : ν} {k : κ}
    (heq : readAll unbounded src requests s = requests.map src.fetch)
    (hlook : s.lookup k = some v) :
    ∀ r ∈ requests, src.keyOf r = k → src.fetch r = .ok v := by
  induction requests generalizing s with
  | nil => exact fun r hr => absurd hr not_mem_nil
  | cons r rest ih =>
    rw [readAll, map_cons, List.cons.injEq] at heq
    obtain ⟨hread, hrest⟩ := heq
    have hkept : (read unbounded src r s).2.lookup k = some v ∧
        (src.keyOf r = k → (read unbounded src r s).1 = .ok v) := by
      by_cases hkey : src.keyOf r = k
      · simp [read, unbounded, hkey, hlook]
      · have hne : (k == src.keyOf r) = false := beq_eq_false_iff_ne.mpr (Ne.symm hkey)
        refine ⟨?_, fun h => absurd h hkey⟩
        simp only [read, unbounded]
        split
        · next h => exact (Prod.mk.inj h).2 ▸ hlook
        · next h =>
            obtain rfl := (Prod.mk.inj h).2
            split
            · exact hlook
            · split_ifs
              · rw [lookup_cons, hne]
                exact hlook
              · exact hlook
    intro r' hr' hkey
    rcases mem_cons.mp hr' with rfl | hr'
    · exact hread.symm.trans (hkept.2 hkey)
    · exact ih hrest hkept.1 r' hr' hkey

/-- A request that fills the cache leaves its value there. -/
theorem lookup_of_read {s : List (κ × ν)} {v : ν} (hread : (read unbounded src r s).1 = .ok v)
    (hf : src.fills r = true) : (read unbounded src r s).2.lookup (src.keyOf r) = some v := by
  rcases hlook : s.lookup (src.keyOf r) with _ | v'
  · rcases hfetch : src.fetch r with e | v'
    · simp [read, unbounded, hlook, hfetch] at hread
    · simpa [read, unbounded, hlook, hfetch, hf] using hread
  · simpa [read, unbounded, hlook] using hread

theorem pairwise_of_readAll {requests : List ρ} {s : List (κ × ν)}
    (heq : readAll unbounded src requests s = requests.map src.fetch) :
    requests.Pairwise (Compatible src) := by
  induction requests generalizing s with
  | nil => exact List.Pairwise.nil
  | cons r rest ih =>
    rw [readAll, map_cons, List.cons.injEq] at heq
    obtain ⟨hread, hrest⟩ := heq
    refine pairwise_cons.mpr ⟨fun r' hr' hkey hf v hfetch => ?_, ih hrest⟩
    have hlook := lookup_of_read (hread.trans hfetch) hf
    exact fetch_eq_of_lookup hrest hlook r' hr' hkey.symm

/-- **When a cache is not seen.** -/
theorem transparent_iff {requests : List ρ} :
    (∀ (σ : Type) (cache : Cache κ ν σ) (Holds : σ → List (κ × ν) → Prop) (s : σ),
      cache.Lawful Holds → Holds s [] → readAll cache src requests s = requests.map src.fetch) ↔
    requests.Pairwise (Compatible src) := by
  constructor
  · intro h
    exact pairwise_of_readAll (h _ unbounded Eq [] lawful_unbounded rfl)
  · intro h σ cache Holds s hl hh
    exact readAll_eq hl h hh fun r _ v hlook => by cases hlook

end PulsearcDb.ReadThrough
