import PulsearcDb.Coding
import PulsearcDb.Foundation.Cursor

/-!
# Iterators

`trait DbIterator` (`db_iter/db_iterator.rs`) is the interface of all iterators. A call that panics
or does not return is `none`. `DbIterator.Lawful` says that an iterator is a bidirectional cursor
over a list of entries, sorted by a comparison of their keys, and `DbIterator.Sound` that its status
also stays ok, which iterators over iterators ask for.
-/

namespace PulsearcDb

open Cursor List

/-- `trait DbIterator`. -/
class DbIterator (σ : Type*) where
  valid : σ → Bool
  seekToFirst : σ → Option σ
  seekToLast : σ → Option σ
  seek : σ → Bytes → Option σ
  next : σ → Option σ
  prev : σ → Option σ
  key : σ → Option Bytes
  value : σ → Option Bytes
  status : σ → Result Unit

namespace DbIterator

variable {σ : Type*} [DbIterator σ]

/-- One call. -/
def step (s : σ) : Call Bytes → Option σ
  | .seekToFirst => seekToFirst s
  | .seekToLast => seekToLast s
  | .seek target => seek s target
  | .next => next s
  | .prev => prev s

/-- What `valid`, `key` and `value` say. The last two are only asked when the iterator is valid. -/
def Shows (s : σ) : Option Pair → Prop
  | none => valid s = false
  | some e => valid s = true ∧ key s = some e.1 ∧ value s = some e.2

/-- The iterator is a cursor over the entries, which are sorted by their keys. -/
def Lawful (cmp : Compare) (entries : List Pair) (s : σ) : Prop :=
  Cursor.Lawful step Shows (fun target e => (cmp target e.1).isLE) entries s

/-- What an iterator without an error shows. -/
def ShowsOk (s : σ) (p : Option Pair) : Prop := Shows s p ∧ status s = .ok ()

/-- The iterator is a cursor over the entries and never has an error. -/
def Sound (cmp : Compare) (entries : List Pair) (s : σ) : Prop :=
  Cursor.Lawful step ShowsOk (fun target e => (cmp target e.1).isLE) entries s

theorem Sound.lawful {cmp : Compare} {entries : List Pair} {s : σ} (h : Sound cmp entries s) :
    Lawful cmp entries s := by
  intro calls hcalls
  obtain ⟨s', hrun, hshows⟩ := h calls hcalls
  exact ⟨s', hrun, hshows.1⟩

/-- The states of an iterator, related to the entries of a set. -/
abbrev Tracks (cmp : Compare) [Std.TransCmp cmp] (S : Set Pair)
    (At : σ → Option Pair → Prop) : Prop :=
  Cursor.Tracks (fun e : Pair => rank cmp e.1) (rank cmp) step Shows S At

/-- The states of an iterator without an error, related to the entries of a set. -/
abbrev SoundTracks (cmp : Compare) [Std.TransCmp cmp] (S : Set Pair)
    (At : σ → Option Pair → Prop) : Prop :=
  Cursor.Tracks (fun e : Pair => rank cmp e.1) (rank cmp) step ShowsOk S At

variable {cmp : Compare} [Std.TransCmp cmp] {entries : List Pair} {s : σ}

theorem Lawful.tracks (h : Lawful cmp entries s) (hsort : Increasing cmp entries) :
    ∃ At, Tracks cmp {e | e ∈ entries} At ∧ At s none :=
  Cursor.Lawful.tracks h (hsort.imp fun hlt => rank_lt_rank.mpr hlt) fun _ _ => rank_le_rank.symm

theorem lawful_of_tracks {At : σ → Option Pair → Prop} (h : Tracks cmp {e | e ∈ entries} At)
    (hsort : Increasing cmp entries) (hs : At s none) :
    Lawful cmp entries s :=
  Cursor.Tracks.lawful h (hsort.imp fun hlt => rank_lt_rank.mpr hlt)
    (fun _ _ => rank_le_rank.symm)
    hs

theorem Sound.tracks (h : Sound cmp entries s) (hsort : Increasing cmp entries) :
    ∃ At, SoundTracks cmp {e | e ∈ entries} At ∧ At s none :=
  Cursor.Lawful.tracks h (hsort.imp fun hlt => rank_lt_rank.mpr hlt) fun _ _ => rank_le_rank.symm

theorem sound_of_tracks {At : σ → Option Pair → Prop} (h : SoundTracks cmp {e | e ∈ entries} At)
    (hsort : Increasing cmp entries) (hs : At s none) :
    Sound cmp entries s :=
  Cursor.Tracks.lawful h (hsort.imp fun hlt => rank_lt_rank.mpr hlt)
    (fun _ _ => rank_le_rank.symm)
    hs

end DbIterator

/-! ### Lookups and scans -/

namespace DbIterator

variable {σ : Type} [DbIterator σ] {cmp : Compare} {entries : List Pair} {s : σ}

/-- The entries from the current one on, in the direction of `move`, and the iterator
behind them. -/
def scan (move : σ → Option σ) : ℕ → σ → Option (List Pair × σ)
  | 0, _ => none
  | rounds + 1, s =>
    if valid s then do
      let k ← key s
      let v ← value s
      let s ← move s
      let (entries, s) ← scan move rounds s
      return ((k, v) :: entries, s)
    else some ([], s)

/-- All entries from the first one on. -/
def scanForward (rounds : ℕ) (s : σ) : Option (List Pair × σ) := do
  scan next rounds (← seekToFirst s)

/-- All entries from the last one on. -/
def scanBackward (rounds : ℕ) (s : σ) : Option (List Pair × σ) := do
  scan prev rounds (← seekToLast s)

/-- A loop over the entries from the current one on, and the iterator behind them. -/
def visit {β : Type} (move : σ → Option σ) (body : β → Pair → ExceptT Status Option β) :
    ℕ → σ → β → ExceptT Status Option (β × σ)
  | 0, _, _ => none
  | rounds + 1, s, acc =>
    if valid s then do
      let acc ← body acc (← key s, ← value s)
      visit move body rounds (← move s) acc
    else return (acc, s)

/-- A new iterator goes to the first entry that reaches the target. -/
theorem Sound.seek_spec (h : Sound cmp entries s) (target : Bytes) :
    ∃ s', seek s target = some s' ∧ ShowsOk s' (entries.find? fun e => (cmp target e.1).isLE) := by
  obtain ⟨At, hstart, hshows, hstep⟩ := Cursor.Lawful.simulates h
  have hall : (Call.seek target).Allowed (none : Option ℕ) := trivial
  obtain ⟨s', hseek, hat⟩ := hstep hstart hall
  refine ⟨s', hseek, ?_⟩
  rw [find?_eq_bind_findIdx?_getElem?]
  exact (hshows hat).2

variable {rounds : ℕ} {move : σ → Option σ}

/-- A scan yields the entries that are left, when every move leaves one entry less. -/
theorem exists_scan {P : σ → List Pair → Prop} (hnil : ∀ {s}, P s [] → ShowsOk s none)
    (hcons : ∀ {s e rest}, P s (e :: rest) →
      ShowsOk s (some e) ∧ ∃ s', move s = some s' ∧ P s' rest)
    (hs : P s entries) (hr : entries.length < rounds) :
    ∃ s', scan move rounds s = some (entries, s') ∧ status s' = .ok () := by
  obtain ⟨rounds, rfl⟩ := Nat.exists_eq_succ_of_ne_zero (Nat.ne_zero_of_lt hr)
  induction entries generalizing s rounds with
  | nil =>
    have hshows := hnil hs
    exact ⟨s, if_neg (Bool.eq_false_iff.mp hshows.1), hshows.2⟩
  | cons e rest ih =>
    obtain ⟨⟨⟨hvalid, hkey, hval⟩, -⟩, s', hmove, hs'⟩ := hcons hs
    obtain ⟨rounds, rfl⟩ := Nat.exists_eq_succ_of_ne_zero
      (Nat.ne_zero_of_lt (Nat.lt_of_succ_lt_succ hr))
    obtain ⟨s'', hrest, hok⟩ := ih hs' rounds (Nat.lt_of_succ_lt_succ hr)
    exact ⟨s'', by rw [scan]; simp [hvalid, hkey, hval, hmove, hrest], hok⟩

/-- A loop over the entries of a scan goes through them one by one. -/
theorem visit_eq {β : Type} {s' : σ} (hscan : scan move rounds s = some (entries, s'))
    (body : β → Pair → ExceptT Status Option β) (acc : β) :
    visit move body rounds s acc = do return (← entries.foldlM body acc, s') := by
  induction rounds generalizing s entries acc with
  | zero => cases hscan
  | succ rounds ih =>
    rw [scan] at hscan
    rw [visit]
    split_ifs at hscan ⊢ with hvalid
    · simp only [Option.bind_eq_bind, Option.bind_eq_some_iff, Option.pure_def, Option.some.injEq,
        Prod.mk.injEq] at hscan
      obtain ⟨k, hkey, v, hval, s₁, hmove, ⟨rest, s₂⟩, hrest, rfl, rfl⟩ := hscan
      simp only [hkey, hval, hmove, ih hrest, liftM_some_bind, foldlM_cons, bind_assoc]
    · obtain ⟨rfl, rfl⟩ := Prod.mk.inj (Option.some.inj hscan)
      rfl

/-- **A scan from the first entry yields the entries.** -/
theorem Sound.scanForward_eq (h : Sound cmp entries s) (hr : entries.length < rounds) :
    ∃ s', scanForward rounds s = some (entries, s') ∧ status s' = .ok () := by
  obtain ⟨At, hstart, hshows, hstep⟩ := Cursor.Lawful.simulates h
  obtain ⟨s₀, hseek, hat⟩ := hstep hstart (show Call.seekToFirst.Allowed none from trivial)
  change seekToFirst s = some s₀ at hseek
  rw [scanForward, hseek]
  refine exists_scan (P := fun s rest =>
    ∃ i, rest = entries.drop i ∧ At s (if i < entries.length then some i else none))
    ?_ ?_ ⟨0, rfl, hat⟩ hr
  · rintro s ⟨i, hnil, hat⟩
    rw [if_neg (drop_eq_nil_iff.mp hnil.symm).not_gt] at hat
    exact (hshows hat).2
  · rintro s e rest ⟨i, hcons, hat⟩
    have hlt : i < entries.length := by
      by_contra hle
      rw [drop_eq_nil_of_le (not_lt.mp hle)] at hcons
      cases hcons
    rw [drop_eq_getElem_cons hlt] at hcons
    obtain ⟨rfl, rfl⟩ := List.cons.inj hcons
    rw [if_pos hlt] at hat
    have hs := (hshows hat).2
    rw [entryAt, Option.bind_some, getElem?_eq_getElem hlt] at hs
    obtain ⟨s', hmove, hat'⟩ := hstep hat (show Call.next.Allowed (some i) from rfl)
    exact ⟨hs, s', hmove, i + 1, rfl, hat'⟩

/-- **A scan from the last entry yields the entries in reverse.** -/
theorem Sound.scanBackward_eq (h : Sound cmp entries s) (hr : entries.length < rounds) :
    ∃ s', scanBackward rounds s = some (entries.reverse, s') ∧ status s' = .ok () := by
  obtain ⟨At, hstart, hshows, hstep⟩ := Cursor.Lawful.simulates h
  obtain ⟨s₀, hseek, hat⟩ := hstep hstart (show Call.seekToLast.Allowed none from trivial)
  change seekToLast s = some s₀ at hseek
  rw [scanBackward, hseek]
  refine exists_scan (P := fun s rest => ∃ i ≤ entries.length,
    rest = (entries.take i).reverse ∧ At s (if 0 < i then some (i - 1) else none))
    ?_ ?_ ⟨_, le_rfl, by rw [take_length], hat⟩ (by rwa [length_reverse])
  · rintro s ⟨i, hle, hnil, hat⟩
    rw [eq_comm, reverse_eq_nil_iff, take_eq_nil_iff] at hnil
    obtain rfl : i = 0 := hnil.elim id fun hnil => Nat.le_zero.mp (hle.trans_eq (by rw [hnil]; rfl))
    exact (hshows hat).2
  · rintro s e rest ⟨i, hle, hcons, hat⟩
    obtain _ | i := i
    · cases hcons
    rw [take_succ_eq_append_getElem hle, reverse_concat] at hcons
    obtain ⟨rfl, rfl⟩ := List.cons.inj hcons
    have hs := (hshows hat).2
    rw [if_pos i.succ_pos, entryAt, Option.bind_some, i.succ_sub_one, getElem?_eq_getElem hle] at hs
    obtain ⟨s', hmove, hat'⟩ := hstep hat (show Call.prev.Allowed (some i) from rfl)
    exact ⟨hs, s', hmove, i, Nat.le_of_succ_le hle, rfl, hat'⟩

end DbIterator

/-! ### Lists in memory -/

/-- A cursor over a sorted list in memory, such as the iterator of a memtable. -/
structure ListCursor (cmp : Compare) where
  entries : List Pair
  position : Option ℕ := none

namespace ListCursor

variable {cmp : Compare}

/-- The entry that the cursor is at. -/
def current (it : ListCursor cmp) : Option Pair := entryAt it.entries it.position

/-- One call on the cursor over a list. -/
def move (it : ListCursor cmp) (call : Call Bytes) : ListCursor cmp :=
  { it with position :=
      listStep (fun target e => (cmp target e.1).isLE) it.entries it.position call }

instance : DbIterator (ListCursor cmp) where
  valid it := it.current.isSome
  seekToFirst it := some (it.move .seekToFirst)
  seekToLast it := some (it.move .seekToLast)
  seek it target := some (it.move (.seek target))
  next it := if it.current.isSome then some (it.move .next) else none
  prev it := if it.current.isSome then some (it.move .prev) else none
  key it := it.current.map Prod.fst
  value it := it.current.map Prod.snd
  status _ := .ok ()

theorem shows (it : ListCursor cmp) : DbIterator.Shows it it.current := by
  rcases h : it.current with _ | e
  · change it.current.isSome = false
    rw [h]
    rfl
  · change it.current.isSome = true ∧ it.current.map Prod.fst = _ ∧ it.current.map Prod.snd = _
    rw [h]
    exact ⟨rfl, rfl, rfl⟩

theorem step_eq {it : ListCursor cmp} {call : Call Bytes} (hall : call.Allowed it.current) :
    DbIterator.step it call = some (it.move call) := by
  cases call with
  | seekToFirst => rfl
  | seekToLast => rfl
  | seek target => rfl
  | next => exact if_pos hall
  | prev => exact if_pos hall

theorem sound_listCursor (entries : List Pair) :
    DbIterator.Sound cmp entries (⟨entries, none⟩ : ListCursor cmp) := by
  refine lawful_of_simulates (fun it p => it = ⟨entries, p⟩) ?_ ?_ rfl
  · rintro _ p rfl
    exact ⟨shows _, rfl⟩
  · rintro _ p call rfl hp hall
    exact ⟨_, step_eq ((allowed_entryAt hp).mpr hall), rfl⟩

theorem lawful_listCursor (entries : List Pair) :
    DbIterator.Lawful cmp entries (⟨entries, none⟩ : ListCursor cmp) :=
  (sound_listCursor entries).lawful

end ListCursor
end PulsearcDb
