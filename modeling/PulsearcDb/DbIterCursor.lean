import PulsearcDb.DbIter

/-!
# The snapshot iterator is a cursor

For an inner iterator that is a cursor over sorted internal entries, `DBIter` is a cursor over the
entries that the snapshot sees. What the loops know at an entry is an invariant for each direction
(`Ahead`, `Behind`); a round keeps it or finds the answer, and each call starts a loop where it
holds. -/

namespace PulsearcDb

open Cursor

namespace DBIter

/-! ### Where the iterator is -/

section Loops

variable {c : Comparator} {fuel s : ℕ} {σ : Type} [DbIterator σ] {inner : List Pair}
  {AtInner : σ → Option Pair → Prop} {it : DBIter c fuel σ} {e x : Pair} {q : Option Pair}

/-- The iterator is at a live entry, or at none. Going forward, the inner iterator is at it; going
backward, it is at the last entry of a smaller user key that the snapshot sees. -/
def AtLive (s : ℕ) (inner : List Pair) (AtInner : σ → Option Pair → Prop)
    (it : DBIter c fuel σ) (p : Option Pair) : Prop :=
  it.sequence = s ∧ ∃ q, AtInner it.iter q ∧
    match p with
    | none => it.valid = false
    | some e => it.valid = true ∧ e ∈ inner ∧ Live c s inner e ∧
      match it.direction with
      | .forward => q = some e
      | .reverse => it.savedKey = userKey e.1 ∧ it.savedValue = e.2 ∧
        IsLast (pos c) {y | y ∈ inner ∧ Seen s y ∧ user c y < user c e} q

/-- What is assumed of the inner iterator: it is a cursor over strictly sorted entries with
well-formed internal keys. -/
structure Over (c : Comparator) (fuel s : ℕ) (inner : List Pair)
    (AtInner : σ → Option Pair → Prop) : Prop where
  wf : ∀ e ∈ inner, IsInternalKey e.1
  sorted : Increasing (icmp c) inner
  tracks : DbIterator.Tracks (icmp c) {e | e ∈ inner} AtInner
  fuel : inner.length ≤ fuel
  sequence : s ≤ maxSequenceNumber

section Inner

variable {iter : σ}

section

variable (h : Over c fuel s inner AtInner)
include h

theorem Over.injOn : Set.InjOn (pos c) {e | e ∈ inner} :=
  injOn_rank (h.sorted.imp fun hlt => rank_lt_rank.mpr hlt)

theorem Over.valid (hat : AtInner iter q) : DbIterator.valid iter = q.isSome := by
  have hshows := h.tracks.shows hat
  cases q with
  | none => exact hshows
  | some e => exact hshows.1

section

variable (hat : AtInner iter (some x))
include hat

theorem Over.key : DbIterator.key iter = some x.1 := (h.tracks.shows hat).2.1

theorem Over.value : DbIterator.value iter = some x.2 := (h.tracks.shows hat).2.2

theorem Over.userKey (hx : x ∈ inner) : innerUserKey iter = some (PulsearcDb.userKey x.1) := by
  obtain ⟨t, -, -, -, huser⟩ := (h.wf x hx).exists_parsed
  rw [innerUserKey, h.key hat, Option.bind_some, huser]

theorem Over.next :
    ∃ iter' q, DbIterator.next iter = some iter' ∧ AtInner iter' q ∧
      IsFirst (pos c) {y | y ∈ inner ∧ pos c x < pos c y} q :=
  h.tracks.moves hat (show Call.Allowed (some x) .next from rfl)

theorem Over.prev :
    ∃ iter' q, DbIterator.prev iter = some iter' ∧ AtInner iter' q ∧
      IsLast (pos c) {y | y ∈ inner ∧ pos c y < pos c x} q :=
  h.tracks.moves hat (show Call.Allowed (some x) .prev from rfl)

end

theorem Over.seekToFirst (hat : AtInner iter q) :
    ∃ iter' q', DbIterator.seekToFirst iter = some iter' ∧ AtInner iter' q' ∧
      IsFirst (pos c) {y | y ∈ inner} q' :=
  h.tracks.moves hat (show Call.Allowed q .seekToFirst from trivial)

theorem Over.seekToLast (hat : AtInner iter q) :
    ∃ iter' q', DbIterator.seekToLast iter = some iter' ∧ AtInner iter' q' ∧
      IsLast (pos c) {y | y ∈ inner} q' :=
  h.tracks.moves hat (show Call.Allowed q .seekToLast from trivial)

theorem Over.seek (hat : AtInner iter q) (target : Bytes) :
    ∃ iter' q', DbIterator.seek iter target = some iter' ∧ AtInner iter' q' ∧
      IsFirst (pos c) {y | y ∈ inner ∧ rank (icmp c) target ≤ pos c y} q' :=
  h.tracks.moves hat (show Call.Allowed q (.seek target) from trivial)

end

end Inner

/-- What `find_next_user_entry` knows at an entry: the live entries that it looks for are not before
it, and an entry that may not be the answer has a user key that is skipped. -/
structure Ahead (c : Comparator) (s : ℕ) (inner : List Pair) (Q : Rank c.compare → Prop)
    (skipping : Bool) (saved : Bytes) (x : Pair) : Prop where
  le : ∀ v ∈ liveAt c s inner Q, pos c x ≤ pos c v
  skipped : skipping = true → ∀ z ∈ inner, Seen s z → pos c x ≤ pos c z →
    user c z ≤ rank c.compare saved → z ∉ liveAt c s inner Q
  covered : ∀ z ∈ inner, Seen s z → pos c x ≤ pos c z →
    (¬ Q (user c z) ∨ ∃ z' ∈ inner, Seen s z' ∧ pos c z' < pos c x ∧ user c z' = user c z) →
      skipping = true ∧ user c z ≤ rank c.compare saved
  saved_le : skipping = true → ∀ z ∈ inner, Seen s z → pos c x ≤ pos c z →
    rank c.compare saved ≤ user c z

section Forward

variable {Q : Rank c.compare → Prop} {skipping : Bool}

/-- An entry that is seen and not skipped is live, and it is the first one. -/
theorem Ahead.answer {saved : Bytes} (hwf : ∀ e ∈ inner, IsInternalKey e.1)
    (h : Ahead c s inner Q skipping saved x) (hx : x ∈ inner) (hseen : Seen s x)
    (hval : keyTypeByte x.1 = ValueType.value.toByte)
    (hnot : ¬ (skipping = true ∧ user c x ≤ rank c.compare saved)) :
    IsFirst (pos c) (liveAt c s inner Q) (some x) := by
  have hcovered := mt (h.covered x hx hseen le_rfl) hnot
  rw [not_or, not_not] at hcovered
  have hlive : Live c s inner x := by
    refine (live_iff hwf hx).mpr ⟨hseen, hval, fun z hz hzseen huser => ?_⟩
    by_contra hlt
    exact hcovered.2 ⟨z, hz, hzseen, not_le.mp hlt, huser⟩
  exact ⟨⟨hx, hlive, hcovered.1⟩, h.le⟩

omit [DbIterator σ] in
/-- The two outcomes of a round: the entry is the answer, or it is passed over. -/
theorem passOver_cases (hseq : it.sequence = s) (skipping : Bool) (x : Pair) (t : ValueType) :
    (it.passOver skipping ⟨userKey x.1, keySequence x.1, t⟩ = none ∧ Seen s x ∧ t = .value ∧
        ¬ (skipping = true ∧ user c x ≤ rank c.compare it.savedKey)) ∨
      ∃ saved skipping', it.passOver skipping ⟨userKey x.1, keySequence x.1, t⟩ =
          some (saved, skipping') ∧
        ((¬ Seen s x ∧ saved = it.savedKey ∧ skipping' = skipping) ∨
          (Seen s x ∧ t = .deletion ∧ saved = userKey x.1 ∧ skipping' = true) ∨
          (Seen s x ∧ (skipping = true ∧ user c x ≤ rank c.compare it.savedKey) ∧
            saved = it.savedKey ∧ skipping' = skipping)) := by
  subst hseq
  by_cases hx : keySequence x.1 ≤ it.sequence
  · cases t with
    | deletion => exact .inr ⟨_, _, if_pos hx, .inr (.inl ⟨hx, rfl, rfl, rfl⟩)⟩
    | value =>
      have hpass : it.passOver skipping ⟨userKey x.1, keySequence x.1, .value⟩ = _ := if_pos hx
      rw [hpass]
      dsimp only
      split_ifs with hskipped
      all_goals rw [Bool.and_eq_true, ← rank_le_rank] at hskipped
      · exact .inr ⟨_, _, rfl, .inr (.inr ⟨hx, hskipped, rfl, rfl⟩)⟩
      · exact .inl ⟨rfl, hx, rfl, hskipped⟩
  · exact .inr ⟨_, _, if_neg hx, .inl ⟨hx, rfl, rfl⟩⟩

/-- **The round of an entry that is passed over.** The entry is not an answer, and what is known at
it is known at the next entry, with the new saved key. -/
theorem Ahead.pass {saved saved' : Bytes} {skipping' : Bool} {t : ValueType}
    (hwf : ∀ e ∈ inner, IsInternalKey e.1)
    (hsort : Increasing (icmp c) inner)
    (h : Ahead c s inner Q skipping saved x) (hx : x ∈ inner) (htype : keyTypeByte x.1 = t.toByte)
    (hpassed : (¬ Seen s x ∧ saved' = saved ∧ skipping' = skipping) ∨
      (Seen s x ∧ t = .deletion ∧ saved' = userKey x.1 ∧ skipping' = true) ∨
      (Seen s x ∧ (skipping = true ∧ user c x ≤ rank c.compare saved) ∧ saved' = saved ∧
        skipping' = skipping)) :
    x ∉ liveAt c s inner Q ∧ ∀ x', IsFirst (pos c) {y | y ∈ inner ∧ pos c x < pos c y} (some x') →
      Ahead c s inner Q skipping' saved' x' := by
  have hinj : Set.InjOn (pos c) {e | e ∈ inner} :=
    injOn_rank (hsort.imp fun hlt => rank_lt_rank.mpr hlt)
  have hnot : x ∉ liveAt c s inner Q := by
    intro hlive
    obtain ⟨hh, -⟩ | ⟨-, rfl, -⟩ | ⟨hseen, ⟨hskipping, hle⟩, -⟩ := hpassed
    · exact hh hlive.2.1.1
    · exact absurd (htype.symm.trans hlive.2.1.2.1) (by decide)
    · exact h.skipped hskipping x hx hseen le_rfl hle hlive
  refine ⟨hnot, fun x' hx' => ?_⟩
  have hb : ∀ {z}, pos c x' ≤ pos c z → pos c x ≤ pos c z := fun hz => (hx'.1.2.trans_le hz).le
  have hle : ∀ v ∈ liveAt c s inner Q, pos c x' ≤ pos c v := fun v hv => by
    refine hx'.2 v ⟨hv.1, lt_of_le_of_ne (h.le v hv) fun heq => hnot ?_⟩
    exact hinj hx hv.1 heq ▸ hv
  -- what is passed now is what was passed before, and the entry itself
  have hbefore : ∀ z ∈ inner, pos c z < pos c x' → pos c z < pos c x ∨ z = x := by
    intro z hz hlt
    have hzx : pos c z ≤ pos c x := not_lt.mp fun hxz => absurd (hx'.2 z ⟨hz, hxz⟩) (not_le.mpr hlt)
    exact hzx.lt_or_eq.imp_right fun heq => hinj hz hx heq
  have hkeep : (Seen s x → skipping = true ∧ user c x ≤ rank c.compare saved) →
      Ahead c s inner Q skipping saved x' := fun hseen => by
    refine ⟨hle, fun hs z hz hzs hxz => h.skipped hs z hz hzs (hb hxz), ?_,
      fun hs z hz hzs hxz => h.saved_le hs z hz hzs (hb hxz)⟩
    rintro z hz hzs hxz (hQ | ⟨z', hz', hzs', hlt, huser⟩)
    · exact h.covered z hz hzs (hb hxz) (.inl hQ)
    · rcases hbefore z' hz' hlt with hlt | rfl
      · exact h.covered z hz hzs (hb hxz) (.inr ⟨z', hz', hzs', hlt, huser⟩)
      · exact huser ▸ hseen hzs'
  obtain ⟨hh, rfl, rfl⟩ | ⟨hseen, rfl, rfl, rfl⟩ | ⟨-, hskipped, rfl, rfl⟩ := hpassed
  · exact hkeep fun hseen => absurd hseen hh
  · -- a tombstone: its key is skipped from here on
    have hold : ∀ {z}, skipping = true ∧ user c z ≤ rank c.compare saved → user c z ≤ user c x :=
      fun hz => hz.2.trans (h.saved_le hz.1 x hx hseen le_rfl)
    refine ⟨hle, fun _ z hz hzs hxz huser hlive => ?_, ?_,
      fun _ z _ _ hxz => user_le_of_pos_le (hb hxz)⟩
    · have hsame := le_antisymm (user_le_of_pos_le (hb hxz)) huser
      have hzx := pos_le_of_live hwf hz hlive.2.1 hx hseen hsame
      exact absurd hzx (not_le.mpr (hx'.1.2.trans_le hxz))
    · rintro z hz hzs hxz (hQ | ⟨z', hz', hzs', hlt, huser⟩)
      · exact ⟨rfl, hold (h.covered z hz hzs (hb hxz) (.inl hQ))⟩
      · rcases hbefore z' hz' hlt with hlt | rfl
        · exact ⟨rfl, hold (h.covered z hz hzs (hb hxz) (.inr ⟨z', hz', hzs', hlt, huser⟩))⟩
        · exact ⟨rfl, huser.ge⟩
  · exact hkeep fun _ => hskipped

section

variable (h : Over c fuel s inner AtInner)
include h

/-- **The forward loop finds the first live entry ahead.** -/
theorem findNextLoop_spec {rounds : ℕ} (hseq : it.sequence = s)
    (hfwd : it.direction = .forward) (hat : AtInner it.iter (some x)) (hx : x ∈ inner)
    (hahead : Ahead c s inner Q skipping it.savedKey x)
    (hrounds : entriesFrom (pos c) inner x ≤ rounds) :
    ∃ it' p, findNextLoop rounds skipping it = some it' ∧ AtLive s inner AtInner it' p ∧
      IsFirst (pos c) (liveAt c s inner Q) p := by
  induction rounds generalizing it x skipping with
  | zero =>
    have hpos : 0 < entriesFrom (pos c) inner x :=
      List.countP_pos_iff.mpr ⟨x, hx, decide_eq_true le_rfl⟩
    omega
  | succ rounds ih =>
    obtain ⟨t, -, htype, hparsed, -⟩ := (h.wf x hx).exists_parsed
    obtain ⟨hpass, hseen, rfl, hnot⟩ | ⟨saved, skipping', hpass, hpassed⟩ :=
      passOver_cases (c := c) hseq skipping x t
    · have hfst := hahead.answer h.wf hx hseen htype hnot
      refine ⟨{ it with valid := true, savedKey := [] }, some x, ?_,
        ⟨hseq, some x, hat, rfl, hx, hfst.1.2.1, ?_⟩, hfst⟩
      · simp [findNextLoop, h.key hat, hparsed, hpass]
      · dsimp only
        rw [hfwd]
    · obtain ⟨hnot, hnext⟩ := hahead.pass h.wf h.sorted hx htype hpassed
      obtain ⟨iter, q, hiter, hatq, hq⟩ := h.next hat
      cases q with
      | none =>
        refine ⟨{ it with iter, savedKey := [], valid := false }, none, ?_,
          ⟨hseq, none, hatq, rfl⟩, ?_⟩
        · simp [findNextLoop, h.key hat, hparsed, hpass, hiter, h.valid hatq]
        · refine Set.eq_empty_of_forall_notMem fun v hv => hq.notMem_of_none (e := v) ⟨hv.1, ?_⟩
          refine lt_of_le_of_ne (hahead.le v hv) fun heq => hnot ?_
          exact h.injOn hx hv.1 heq ▸ hv
      | some x' =>
        have hlt : entriesFrom (pos c) inner x' < entriesFrom (pos c) inner x :=
          entriesFrom_lt hx hq.1.2
        have hseq' : ({ it with iter, savedKey := saved } : DBIter c fuel σ).sequence = s := hseq
        obtain ⟨it', p, hloop, hlive, hfst⟩ := ih hseq' hfwd hatq hq.1.1 (hnext x' hq) (by omega)
        refine ⟨it', p, ?_, hlive, hfst⟩
        simp [findNextLoop, h.key hat, hparsed, hpass, hiter, h.valid hatq, hloop]

theorem findNextUserEntry_spec (it : DBIter c fuel σ) (hseq : it.sequence = s)
    (hfwd : it.direction = .forward) (hat : AtInner it.iter (some x)) (hx : x ∈ inner)
    (hahead : Ahead c s inner Q skipping it.savedKey x) :
    ∃ it' p, findNextUserEntry skipping it = some it' ∧ AtLive s inner AtInner it' p ∧
      IsFirst (pos c) (liveAt c s inner Q) p := by
  obtain ⟨it', p, hloop, hspec⟩ := findNextLoop_spec h hseq hfwd hat hx hahead
    ((entriesFrom_le_length x).trans h.fuel)
  exact ⟨it', p, by simp [findNextUserEntry, h.valid hat, hfwd, hloop], hspec⟩

omit h in
/-- A search starts at the first entry of a part of the inner entries. -/
theorem Ahead.start {P : Pair → Prop} (saved : Bytes)
    (hP : ∀ y ∈ inner, Seen s y → (P y ↔ Q (user c y)))
    (hup : ∀ y z, P y → pos c y ≤ pos c z → P z)
    (hx : IsFirst (pos c) {y | y ∈ inner ∧ P y} (some x)) : Ahead c s inner Q false saved x := by
  have hQ : ∀ {z}, z ∈ inner → Seen s z → pos c x ≤ pos c z → Q (user c z) := fun hz hseen hxz =>
    (hP _ hz hseen).mp (hup x _ hx.1.2 hxz)
  refine ⟨fun v hv => hx.2 v ⟨hv.1, (hP v hv.1 hv.2.1.1).mpr hv.2.2⟩,
    fun hs => absurd hs (by decide), ?_, fun hs => absurd hs (by decide)⟩
  rintro z hz hseen hxz (hnot | ⟨z', hz', hseen', hlt, huser⟩)
  · exact absurd (hQ hz hseen hxz) hnot
  · have hPz' : P z' := (hP z' hz' hseen').mpr (huser ▸ hQ hz hseen hxz)
    exact absurd (hx.2 z' ⟨hz', hPz'⟩) (not_le.mpr hlt)

omit h in
/-- A search for the next user key starts at an entry that is not behind the current one and before
which all smaller user keys are. -/
theorem Ahead.skip (hle : pos c x ≤ pos c e)
    (hb : ∀ z ∈ inner, Seen s z → pos c x ≤ pos c z → user c e ≤ user c z) :
    Ahead c s inner (user c e < ·) true (userKey e.1) x := by
  refine ⟨fun v hv => hle.trans (pos_lt_of_user_lt hv.2.2).le,
    fun _ z _ _ _ huser hlive => absurd hlive.2.2 (not_lt.mpr huser), ?_,
    fun _ z hz hseen hxz => hb z hz hseen hxz⟩
  rintro z hz hseen hxz (hnot | ⟨z', hz', hseen', hlt, huser⟩)
  · exact ⟨rfl, not_lt.mp hnot⟩
  · refine ⟨rfl, not_lt.mp fun hez => ?_⟩
    exact absurd (hle.trans (pos_lt_of_user_lt (huser ▸ hez)).le) (not_le.mpr hlt)

/-- A search that starts at the first entry of a part of the inner entries. -/
theorem findFirst_spec {P : Pair → Prop}
    (it : DBIter c fuel σ) (hseq : it.sequence = s) (hfwd : it.direction = .forward)
    (hat : AtInner it.iter q) (hP : ∀ y ∈ inner, Seen s y → (P y ↔ Q (user c y)))
    (hup : ∀ y z, P y → pos c y ≤ pos c z → P z) (hq : IsFirst (pos c) {y | y ∈ inner ∧ P y} q) :
    ∃ it' p, (if DbIterator.valid it.iter then findNextUserEntry false it
          else some { it with valid := false }) = some it' ∧
        AtLive s inner AtInner it' p ∧ IsFirst (pos c) (liveAt c s inner Q) p := by
  rw [h.valid hat]
  cases q with
  | none =>
    refine ⟨{ it with valid := false }, none, rfl, ⟨hseq, none, hat, rfl⟩, ?_⟩
    refine Set.eq_empty_of_forall_notMem fun v hv => hq.notMem_of_none ⟨hv.1, ?_⟩
    exact (hP v hv.1 hv.2.1.1).mpr hv.2.2
  | some x =>
    exact findNextUserEntry_spec h it hseq hfwd hat hq.1.1 (Ahead.start _ hP hup hq)

theorem seekToFirst_spec (hseq : it.sequence = s) (hat : AtInner it.iter q) :
    ∃ it' p, it.seekToFirst = some it' ∧ AtLive s inner AtInner it' p ∧
      IsFirst (pos c) (liveAt c s inner fun _ => True) p := by
  obtain ⟨iter, q', hiter, hat', hq'⟩ := h.seekToFirst hat
  have hall : IsFirst (pos c) {y | y ∈ inner ∧ True} q' := by simpa only [and_true] using hq'
  rw [seekToFirst, hiter]
  exact findFirst_spec h { it with iter, direction := .forward, savedValue := [] } hseq rfl
    hat' (fun _ _ _ => Iff.rfl) (fun _ _ _ _ => trivial) hall

omit h in
/-- Of the entries that a snapshot sees, those of user keys that are not smaller are not before the
key that is sought. -/
theorem lookup_le_iff (hs : s ≤ maxSequenceNumber) (target : Bytes) {y : Pair}
    (hy : IsInternalKey y.1) (hseen : Seen s y) :
    rank (icmp c) (internalKey target s .value) ≤ pos c y ↔ rank c.compare target ≤ user c y := by
  obtain ⟨t, htag, -⟩ := hy.exists_parsed
  have ht : t.toByte ≤ 1 := by cases t <;> decide
  have hlook : pos c (internalKey target s .value, []) ≤ pos c y ↔
      ¬ (user c y < rank c.compare target ∨
        user c y = rank c.compare target ∧ s * 256 + 1 < keyTag y.1) := by
    rw [← not_lt, pos_lt, user, user, userKey_internalKey, keyTag_internalKey hs]
    rfl
  have hseen : keySequence y.1 ≤ s := hseen
  have htag : ¬ s * 256 + 1 < keyTag y.1 := by omega
  rw [hlook]
  simp only [htag, and_false, or_false, not_lt]

theorem seek_spec (hseq : it.sequence = s) (hat : AtInner it.iter q) (target : Bytes) :
    ∃ it' p, it.seek target = some it' ∧ AtLive s inner AtInner it' p ∧
      IsFirst (pos c) (liveAt c s inner (rank c.compare target ≤ ·)) p := by
  obtain ⟨iter, q', hiter, hat', hq'⟩ := h.seek hat (internalKey target it.sequence .value)
  have hguard : it.sequence ≤ maxSequenceNumber := hseq ▸ h.sequence
  simp only [seek, guard, if_pos hguard, hiter, Option.pure_def, Option.bind_eq_bind,
    Option.bind_some]
  subst hseq
  exact findFirst_spec h { it with
      iter, direction := .forward, savedValue := []
      savedKey := internalKey target it.sequence .value } rfl rfl hat'
    (fun y hy hseen => lookup_le_iff h.sequence target (h.wf y hy) hseen)
    (fun _ _ hy hyz => hy.trans hyz) hq'

/-- Turning forward, the inner iterator goes into the entries of the current key. -/
theorem turnForward_spec {iter : σ} (hat : AtInner iter q)
    (he : e ∈ inner) (hq : IsLast (pos c) {y | y ∈ inner ∧ Seen s y ∧ user c y < user c e} q) :
    ∃ iter' x, (if DbIterator.valid iter then DbIterator.next iter
          else DbIterator.seekToFirst iter) = some iter' ∧ AtInner iter' (some x) ∧ x ∈ inner ∧
        pos c x ≤ pos c e ∧ ∀ z ∈ inner, Seen s z → pos c x ≤ pos c z → user c e ≤ user c z := by
  rw [h.valid hat]
  cases q with
  | none =>
    obtain ⟨iter', q', hiter, hat', hq'⟩ := h.seekToFirst hat
    cases q' with
    | none => exact absurd he hq'.notMem_of_none
    | some x =>
      refine ⟨iter', x, hiter, hat', hq'.1, hq'.2 e he, fun z hz hseen _ => ?_⟩
      exact not_lt.mp fun hlt => hq.notMem_of_none ⟨hz, hseen, hlt⟩
  | some y =>
    obtain ⟨iter', q', hiter, hat', hq'⟩ := h.next hat
    have hye : pos c y < pos c e := pos_lt_of_user_lt hq.1.2.2
    cases q' with
    | none => exact absurd ⟨he, hye⟩ hq'.notMem_of_none
    | some x =>
      refine ⟨iter', x, hiter, hat', hq'.1.1, hq'.2 e ⟨he, hye⟩, fun z hz hseen hxz => ?_⟩
      refine not_lt.mp fun hlt => ?_
      exact absurd (hq.2 z ⟨hz, hseen, hlt⟩) (not_le.mpr (hq'.1.2.trans_le hxz))

/-- **`next` goes to the first live entry of a larger user key.** -/
theorem next_spec (hlive : AtLive s inner AtInner it (some e)) :
    ∃ it' p, it.next = some it' ∧ AtLive s inner AtInner it' p ∧
      IsFirst (pos c) (liveAt c s inner (user c e < ·)) p := by
  obtain ⟨hseq, q, hat, hvalid, he, -, hplace⟩ := hlive
  rcases hdir : it.direction with _ | _
  · rw [hdir] at hplace
    obtain rfl : q = some e := hplace
    have hahead : Ahead c s inner (user c e < ·) true (userKey e.1) e :=
      Ahead.skip le_rfl fun _ _ _ hez => user_le_of_pos_le hez
    obtain ⟨it', p, hf, hspec⟩ := findNextUserEntry_spec h { it with savedKey := userKey e.1 }
      hseq hdir hat he hahead
    have hnext : it.next = findNextUserEntry true { it with savedKey := userKey e.1 } := by
      simp [next, guard, hvalid, hdir, h.userKey hat he]
    exact ⟨it', p, hnext.trans hf, hspec⟩
  · rw [hdir] at hplace
    obtain ⟨hkey, -, hq⟩ := hplace
    obtain ⟨iter, x, hiter, hatx, hx, hle, hb⟩ := turnForward_spec h hat he hq
    obtain ⟨it', p, hf, hspec⟩ := findNextUserEntry_spec h
      { it with iter, direction := .forward } hseq rfl hatx hx (hkey ▸ Ahead.skip hle hb)
    have hnext : it.next = findNextUserEntry true { it with iter, direction := .forward } := by
      simp only [next, guard, if_pos hvalid, hdir, Option.pure_def, Option.bind_eq_bind,
        Option.bind_some]
      split_ifs at hiter ⊢ <;> simp [hiter, h.valid hatx]
    exact ⟨it', p, hnext.trans hf, hspec⟩

end

end Forward

section Backward

variable {Q : Rank c.compare → Prop} {valueType : ValueType} {key value : Bytes} {y z : Pair}

/-- The entry is behind the place of the inner iterator, which may have left all entries. -/
def After (c : Comparator) (q : Option Pair) (z : Pair) : Prop :=
  ∀ y ∈ q, pos c y < pos c z

/-- `find_prev_user_entry` has remembered an entry: the first one behind its place that the snapshot
sees, and the only one there that may be live. -/
structure Remembered (c : Comparator) (s : ℕ) (inner : List Pair)
    (Q : Rank c.compare → Prop) (key value : Bytes) (q : Option Pair)
    (z : Pair) : Prop where
  mem : z ∈ inner
  seen : Seen s z
  isValue : keyTypeByte z.1 = ValueType.value.toByte
  inside : Q (user c z)
  after : After c q z
  key_eq : key = userKey z.1
  value_eq : value = z.2
  first : ∀ z' ∈ inner, Seen s z' → Q (user c z') → After c q z' → pos c z ≤ pos c z'
  eq_of_live : ∀ v ∈ liveAt c s inner Q, After c q v → v = z

/-- What `find_prev_user_entry` knows at its place. -/
def Behind (c : Comparator) (s : ℕ) (inner : List Pair) (Q : Rank c.compare → Prop)
    (key value : Bytes) (q : Option Pair) : ValueType → Prop
  | .deletion => ∀ v ∈ liveAt c s inner Q, ¬ After c q v
  | .value => ∃ z, Remembered c s inner Q key value q z

/-- After a step backward the entries behind are those before and the entry that has been left. -/
theorem after_prev_iff (hq : IsLast (pos c) {x | x ∈ inner ∧ pos c x < pos c y} q)
    (hz : z ∈ inner) : After c q z ↔ pos c y ≤ pos c z := by
  constructor
  · intro ha
    by_contra hlt
    cases q with
    | none => exact hq.notMem_of_none ⟨hz, not_le.mp hlt⟩
    | some x => exact absurd (hq.2 z ⟨hz, not_le.mp hlt⟩) (not_le.mpr (ha x rfl))
  · rintro hle x rfl
    exact hq.1.2.trans_le hle

/-- A search starts at the last entry of a set that has all live entries that are looked for. -/
theorem Behind.start {S : Set Pair} (hq : IsLast (pos c) S q) (hS : liveAt c s inner Q ⊆ S) :
    Behind c s inner Q key value q .deletion := by
  intro v hv ha
  cases q with
  | none => exact hq.notMem_of_none (hS hv)
  | some x => exact absurd (hq.2 v (hS hv)) (not_le.mpr (ha x rfl))

/-- The place of an entry that is newer than the snapshot is left. -/
theorem Behind.hidden (hsort : Increasing (icmp c) inner)
    (h : Behind c s inner Q key value (some y) valueType) (hy : y ∈ inner) (hh : ¬ Seen s y)
    (hq : IsLast (pos c) {x | x ∈ inner ∧ pos c x < pos c y} q) :
    Behind c s inner Q key value q valueType := by
  have hinj : Set.InjOn (pos c) {e | e ∈ inner} :=
    injOn_rank (hsort.imp fun hlt => rank_lt_rank.mpr hlt)
  have ha : ∀ {z}, z ∈ inner → Seen s z → After c q z → After c (some y) z := by
    rintro z hz hseen hz' _ ⟨⟩
    refine lt_of_le_of_ne ((after_prev_iff hq hz).mp hz') fun heq => hh ?_
    exact hinj hy hz heq ▸ hseen
  cases valueType with
  | deletion => exact fun v hv hv' => h v hv (ha hv.1 hv.2.1.1 hv')
  | value =>
    obtain ⟨z, hz⟩ := h
    exact ⟨z, { hz with
      after := (after_prev_iff hq hz.mem).mpr (hz.after y rfl).le
      first := fun z' hz' hseen hQ hz'' => hz.first z' hz' hseen hQ (ha hz' hseen hz'')
      eq_of_live := fun v hv hv' => hz.eq_of_live v hv (ha hv.1 hv.2.1.1 hv') }⟩

/-- Unless the search ends at an entry that the snapshot sees, no entry behind it is live. -/
theorem Behind.not_live (hwf : ∀ e ∈ inner, IsInternalKey e.1)
    (h : Behind c s inner Q key value (some y) valueType) (hy : y ∈ inner) (hseen : Seen s y)
    (hgo : ¬ (valueType ≠ .deletion ∧ user c y < rank c.compare key)) {v : Pair}
    (hv : v ∈ liveAt c s inner Q) : ¬ pos c y < pos c v := by
  intro hlt
  have ha : After c (some y) v := by
    rintro _ ⟨⟩
    exact hlt
  cases valueType with
  | deletion => exact h v hv ha
  | value =>
    obtain ⟨z, hz⟩ := h
    obtain rfl := hz.eq_of_live v hv ha
    have hle : user c v ≤ user c y := not_lt.mp fun hyv => hgo ⟨by decide, hz.key_eq ▸ hyv⟩
    have hsame := le_antisymm (user_le_of_pos_le hlt.le) hle
    exact absurd (pos_le_of_live hwf hv.1 hv.2.1 hy hseen hsame) (not_le.mpr hlt)

/-- The place of an entry that the snapshot sees is left, and the entry is remembered. -/
theorem Behind.remember (hwf : ∀ e ∈ inner, IsInternalKey e.1) (hsort : Increasing (icmp c) inner)
    (h : Behind c s inner Q key value (some y) valueType) (hy : y ∈ inner) (hseen : Seen s y)
    (hQ : Q (user c y)) (hgo : ¬ (valueType ≠ .deletion ∧ user c y < rank c.compare key))
    (hq : IsLast (pos c) {x | x ∈ inner ∧ pos c x < pos c y} q) {t : ValueType}
    (ht : keyTypeByte y.1 = t.toByte) {key' value' : Bytes}
    (hsaved : t = .value → key' = userKey y.1 ∧ value' = y.2) :
    Behind c s inner Q key' value' q t := by
  have hlive : ∀ v ∈ liveAt c s inner Q, After c q v → v = y := fun v hv ha => by
    have hle := (after_prev_iff hq hv.1).mp ha
    have heq := hle.antisymm (not_lt.mp (h.not_live hwf hy hseen hgo hv))
    exact (injOn_rank (hsort.imp fun hlt => rank_lt_rank.mpr hlt) hy hv.1 heq).symm
  cases t with
  | deletion =>
    intro v hv ha
    obtain rfl := hlive v hv ha
    exact absurd (ht.symm.trans hv.2.1.2.1) (by decide)
  | value =>
    obtain ⟨rfl, rfl⟩ := hsaved rfl
    exact ⟨y, hy, hseen, ht, hQ, (after_prev_iff hq hy).mpr le_rfl, rfl, rfl,
      fun z' hz' _ _ ha => (after_prev_iff hq hz').mp ha, hlive⟩

omit [DbIterator σ] in
/-- **The end of a backward search.** The inner iterator has left all entries, or it is at an entry
that the snapshot sees of a user key before the remembered one. -/
theorem Behind.finish (hwf : ∀ e ∈ inner, IsInternalKey e.1) (hdown : ∀ a b, Q a → b ≤ a → Q b)
    (h : Behind c s inner Q it.savedKey it.savedValue q valueType) (hseq : it.sequence = s)
    (hrev : it.direction = .reverse) (hat : AtInner it.iter q)
    (hstop : ∀ y ∈ q, y ∈ inner ∧ Seen s y ∧ valueType ≠ .deletion ∧
      user c y < rank c.compare it.savedKey) :
    ∃ p, AtLive s inner AtInner (finishPrev valueType it) p ∧
      IsLast (pos c) (liveAt c s inner Q) p := by
  cases valueType with
  | deletion =>
    refine ⟨none, ⟨hseq, q, hat, rfl⟩, Set.eq_empty_of_forall_notMem fun v hv => h v hv ?_⟩
    exact fun y hy => absurd rfl (hstop y hy).2.2.1
  | value =>
    obtain ⟨z, hz⟩ := h
    rw [hz.key_eq] at hstop
    -- an entry that is not behind the place has a smaller user key
    have hbefore : ∀ {z'}, z' ∈ inner → ¬ After c q z' → user c z' < user c z := fun _ hnot => by
      rw [After, not_forall₂] at hnot
      obtain ⟨y, hy, hle⟩ := hnot
      exact (user_le_of_pos_le (not_lt.mp hle)).trans_lt (hstop y hy).2.2.2
    have hle : ∀ {z'}, z' ∈ inner → Seen s z' → user c z' = user c z → pos c z ≤ pos c z' :=
      fun {z'} hz' hseen huser => by
        refine hz.first z' hz' hseen (huser ▸ hz.inside) ?_
        by_contra hnot
        exact absurd huser (hbefore hz' hnot).ne
    have hlive : Live c s inner z :=
      (live_iff hwf hz.mem).mpr ⟨hz.seen, hz.isValue, fun _ hz' hseen huser => hle hz' hseen huser⟩
    refine ⟨some z, ⟨hseq, q, hat, rfl, hz.mem, hlive, ?_⟩, ⟨hz.mem, hlive, hz.inside⟩,
      fun v hv => ?_⟩
    · rw [show (finishPrev .value it).direction = .reverse from hrev]
      refine ⟨hz.key_eq, hz.value_eq, ?_⟩
      have hnot : ∀ {z'}, z' ∈ inner → Seen s z' → user c z' < user c z → ¬ After c q z' :=
        fun hz' hseen huser ha => absurd
          (hz.first _ hz' hseen (hdown _ _ hz.inside huser.le) ha)
          (not_le.mpr (pos_lt_of_user_lt huser))
      cases q with
      | none =>
        refine Set.eq_empty_of_forall_notMem fun z' hz' => hnot hz'.1 hz'.2.1 hz'.2.2 ?_
        exact fun y hy => absurd hy (Option.not_mem_none y)
      | some y =>
        obtain ⟨hy, hyseen, -, hyz⟩ := hstop y rfl
        refine ⟨⟨hy, hyseen, hyz⟩, fun z' hz' => not_lt.mp fun hlt => ?_⟩
        exact hnot hz'.1 hz'.2.1 hz'.2.2 fun _ hy' => Option.mem_some.mp hy' ▸ hlt
    · by_cases ha : After c q v
      · rw [hz.eq_of_live v hv ha]
      · exact (pos_lt_of_user_lt (hbefore hv.1 ha)).le

section

variable (h : Over c fuel s inner AtInner)
include h

theorem remember_spec (hat : AtInner it.iter (some y)) (t : ValueType) :
    ∃ key value, it.remember ⟨userKey y.1, keySequence y.1, t⟩ =
        some { it with savedKey := key, savedValue := value } ∧
      (t = .value → key = userKey y.1 ∧ value = y.2) := by
  cases t with
  | deletion => exact ⟨[], [], rfl, fun hval => by cases hval⟩
  | value => exact ⟨userKey y.1, y.2, by simp [remember, h.value hat], fun _ => ⟨rfl, rfl⟩⟩

/-- **The backward loop finds the last live entry behind.** -/
theorem findPrevLoop_spec (hdown : ∀ a b, Q a → b ≤ a → Q b) {rounds : ℕ} (hseq : it.sequence = s)
    (hrev : it.direction = .reverse) (hat : AtInner it.iter (some y)) (hy : y ∈ inner)
    (hQ : Q (user c y)) (hb : Behind c s inner Q it.savedKey it.savedValue (some y) valueType)
    (hrounds : entriesTo (pos c) inner y ≤ rounds) :
    ∃ it' p, findPrevLoop rounds valueType it = some it' ∧ AtLive s inner AtInner it' p ∧
      IsLast (pos c) (liveAt c s inner Q) p := by
  induction rounds generalizing it y valueType with
  | zero =>
    have hpos : 0 < entriesTo (pos c) inner y :=
      List.countP_pos_iff.mpr ⟨y, hy, decide_eq_true le_rfl⟩
    omega
  | succ rounds ih =>
    obtain ⟨t, -, htype, hparsed, -⟩ := (h.wf y hy).exists_parsed
    obtain ⟨iter, q, hiter, hatq, hq⟩ := h.prev hat
    -- the rest of the search, after the inner iterator has been moved
    have hleave : ∀ it₁ : DBIter c fuel σ, ∀ t₁, it₁.sequence = s → it₁.direction = .reverse →
        it₁.iter = iter → Behind c s inner Q it₁.savedKey it₁.savedValue q t₁ →
        ∃ it' p, (if DbIterator.valid iter then findPrevLoop rounds t₁ it₁
            else some (finishPrev t₁ it₁)) = some it' ∧
          AtLive s inner AtInner it' p ∧ IsLast (pos c) (liveAt c s inner Q) p := by
      rintro it₁ t₁ hseq₁ hrev₁ rfl hb₁
      rw [h.valid hatq]
      cases q with
      | none =>
        obtain ⟨p, hfinish⟩ := hb₁.finish h.wf hdown hseq₁ hrev₁ hatq
          fun y hy => absurd hy (Option.not_mem_none y)
        exact ⟨_, p, rfl, hfinish⟩
      | some x =>
        have hlt : entriesTo (pos c) inner x < entriesTo (pos c) inner y := entriesTo_lt hy hq.1.2
        have hQx := hdown _ _ hQ (user_le_of_pos_le hq.1.2.le)
        exact ih hseq₁ hrev₁ hatq hq.1.1 hQx hb₁ (by omega)
    have hstop_iff : valueType ≠ .deletion ∧ (c.compare (userKey y.1) it.savedKey).isLT ↔
        valueType ≠ .deletion ∧ user c y < rank c.compare it.savedKey := by
      rw [rank_lt_rank, Ordering.isLT_iff_eq_lt]
    by_cases hseen : Seen s y
    · have hseen' : keySequence y.1 ≤ it.sequence := hseq ▸ hseen
      by_cases hstop : valueType ≠ .deletion ∧ user c y < rank c.compare it.savedKey
      · obtain ⟨p, hfinish⟩ := hb.finish h.wf hdown hseq hrev hat
          fun x hx => Option.mem_some.mp hx ▸ ⟨hy, hseen, hstop⟩
        refine ⟨_, p, ?_, hfinish⟩
        rw [← hstop_iff] at hstop
        simp only [findPrevLoop, h.key hat, hparsed, if_pos hseen', if_pos hstop,
          some_bind, Option.pure_def]
      · obtain ⟨key, value, hremember, hsaved⟩ := remember_spec h hat t
        obtain ⟨it', p, hloop, hspec⟩ := hleave
          { it with iter, savedKey := key, savedValue := value } t hseq hrev rfl
          (hb.remember h.wf h.sorted hy hseen hQ hstop hq htype hsaved)
        refine ⟨it', p, ?_, hspec⟩
        rw [← hstop_iff] at hstop
        simp only [findPrevLoop, h.key hat, hparsed, if_pos hseen', if_neg hstop, hremember, hiter,
          some_bind, Option.pure_def]
        exact hloop
    · obtain ⟨it', p, hloop, hspec⟩ := hleave { it with iter } valueType hseq hrev rfl
        (hb.hidden h.sorted hy hseen hq)
      refine ⟨it', p, ?_, hspec⟩
      have hseen' : ¬ keySequence y.1 ≤ it.sequence := hseq ▸ hseen
      simp [findPrevLoop, h.key hat, hparsed, hseen', hiter, hloop]

/-- A backward search that starts at the last entry of a set. -/
theorem findPrevUserEntry_spec (hdown : ∀ a b, Q a → b ≤ a → Q b) {S : Set Pair}
    (it : DBIter c fuel σ) (hseq : it.sequence = s) (hrev : it.direction = .reverse)
    (hat : AtInner it.iter q) (hq : IsLast (pos c) S q) (hlive : liveAt c s inner Q ⊆ S)
    (hS : ∀ y ∈ S, y ∈ inner ∧ Q (user c y)) :
    ∃ it' p, it.findPrevUserEntry = some it' ∧ AtLive s inner AtInner it' p ∧
      IsLast (pos c) (liveAt c s inner Q) p := by
  have hb : Behind c s inner Q it.savedKey it.savedValue q .deletion := Behind.start hq hlive
  cases q with
  | none =>
    obtain ⟨p, hfinish⟩ := hb.finish h.wf hdown hseq hrev hat
      fun y hy => absurd hy (Option.not_mem_none y)
    exact ⟨_, p, by simp [findPrevUserEntry, hrev, h.valid hat], hfinish⟩
  | some y =>
    obtain ⟨hy, hQ⟩ := hS y hq.1
    obtain ⟨it', p, hloop, hspec⟩ := findPrevLoop_spec h hdown hseq hrev hat hy hQ hb
      ((entriesTo_le_length y).trans h.fuel)
    exact ⟨it', p, by simp [findPrevUserEntry, hrev, h.valid hat, hloop], hspec⟩

theorem seekToLast_spec (hseq : it.sequence = s) (hat : AtInner it.iter q) :
    ∃ it' p, it.seekToLast = some it' ∧ AtLive s inner AtInner it' p ∧
      IsLast (pos c) (liveAt c s inner fun _ => True) p := by
  obtain ⟨iter, q', hiter, hat', hq'⟩ := h.seekToLast hat
  rw [seekToLast, hiter]
  exact findPrevUserEntry_spec h (fun _ _ _ _ => trivial)
    { it with iter, direction := .reverse, savedValue := [] } hseq rfl hat' hq'
    (fun v hv => hv.1) fun y hy => ⟨hy, trivial⟩

/-- **The loop that leaves the entries of the current key.** -/
theorem leaveKey_spec {rounds : ℕ} (hseq : it.sequence = s) (hkey : it.savedKey = userKey e.1)
    (hat : AtInner it.iter (some x)) (hx : x ∈ inner) (hnot : ¬ user c x < user c e)
    (hrounds : entriesTo (pos c) inner x ≤ rounds) :
    ∃ it' p, leaveKey rounds it = some it' ∧ AtLive s inner AtInner it' p ∧
      IsLast (pos c) (liveAt c s inner (· < user c e)) p := by
  induction rounds generalizing it x with
  | zero =>
    have hpos : 0 < entriesTo (pos c) inner x :=
      List.countP_pos_iff.mpr ⟨x, hx, decide_eq_true le_rfl⟩
    omega
  | succ rounds ih =>
    obtain ⟨iter, q, hiter, hatq, hq⟩ := h.prev hat
    have hbefore : ∀ {z}, user c z < user c e → pos c z < pos c x := fun hz => by
      by_contra hle
      exact hnot ((user_le_of_pos_le (not_lt.mp hle)).trans_lt hz)
    cases q with
    | none =>
      refine ⟨{ it with iter, valid := false, savedKey := [], savedValue := [] }, none, ?_,
        ⟨hseq, none, hatq, rfl⟩, ?_⟩
      · simp [leaveKey, hiter, h.valid hatq]
      · exact Set.eq_empty_of_forall_notMem fun v hv => hq.notMem_of_none ⟨hv.1, hbefore hv.2.2⟩
    | some y =>
      have hlt_iff : user c y < user c e ↔ c.compare (userKey y.1) it.savedKey = .lt :=
        hkey ▸ rank_lt_rank
      by_cases hyx : user c y < user c e
      · have hlast : IsLast (pos c) {z | z ∈ inner ∧ user c z < user c e} (some y) :=
          ⟨⟨hq.1.1, hyx⟩, fun z hz => hq.2 z ⟨hz.1, hbefore hz.2⟩⟩
        obtain ⟨it', p, hf, hspec⟩ := findPrevUserEntry_spec h
          (fun _ _ hab hba => hba.trans_lt hab) { it with iter, direction := .reverse }
          hseq rfl hatq hlast (fun v hv => ⟨hv.1, hv.2.2⟩) fun _ hz => hz
        refine ⟨it', p, ?_, hspec⟩
        rw [hlt_iff] at hyx
        simp [leaveKey, hiter, h.valid hatq, h.userKey hatq hq.1.1, hyx, hf]
      · have hlt : entriesTo (pos c) inner y < entriesTo (pos c) inner x := entriesTo_lt hx hq.1.2
        have hseq' : ({ it with iter } : DBIter c fuel σ).sequence = s := hseq
        obtain ⟨it', p, hloop, hspec⟩ := ih hseq' hkey hatq hq.1.1 hyx (by omega)
        refine ⟨it', p, ?_, hspec⟩
        rw [hlt_iff] at hyx
        simp [leaveKey, hiter, h.valid hatq, h.userKey hatq hq.1.1, hyx, hloop]

/-- **`prev` goes to the last live entry of a smaller user key.** -/
theorem prev_spec (hlive : AtLive s inner AtInner it (some e)) :
    ∃ it' p, it.prev = some it' ∧ AtLive s inner AtInner it' p ∧
      IsLast (pos c) (liveAt c s inner (· < user c e)) p := by
  obtain ⟨hseq, q, hat, hvalid, he, -, hplace⟩ := hlive
  rcases hdir : it.direction with _ | _
  · rw [hdir] at hplace
    obtain rfl : q = some e := hplace
    have hseq' : ({ it with savedKey := userKey e.1 } : DBIter c fuel σ).sequence = s := hseq
    obtain ⟨it', p, hloop, hspec⟩ := leaveKey_spec h hseq' rfl hat he (lt_irrefl _)
      ((entriesTo_le_length e).trans h.fuel)
    have hprev : it.prev = leaveKey fuel { it with savedKey := userKey e.1 } := by
      simp [prev, guard, hvalid, hdir, h.userKey hat he]
    exact ⟨it', p, hprev.trans hloop, hspec⟩
  · rw [hdir] at hplace
    obtain ⟨-, -, hq⟩ := hplace
    obtain ⟨it', p, hf, hspec⟩ := findPrevUserEntry_spec h
      (fun _ _ hab hba => hba.trans_lt hab) it hseq hdir hat hq
      (fun v hv => ⟨hv.1, hv.2.1.1, hv.2.2⟩) fun _ hy => ⟨hy.1, hy.2.2⟩
    have hprev : it.prev = it.findPrevUserEntry := by simp [prev, guard, hvalid, hdir]
    exact ⟨it', p, hprev.trans hf, hspec⟩

end

end Backward

/-- What is shown is the live entry that the iterator is at. -/
theorem shows_live (h : Over c fuel s inner AtInner) {p : Option Pair}
    (hlive : AtLive s inner AtInner it p) : DbIterator.Shows it (p.map shown) := by
  obtain ⟨hseq, q, hat, hp⟩ := hlive
  cases p with
  | none => exact hp
  | some e =>
    obtain ⟨hvalid, he, -, hplace⟩ := hp
    refine ⟨hvalid, ?_, ?_⟩
    · change it.key = some (userKey e.1)
      rcases hdir : it.direction with _ | _
      all_goals rw [hdir] at hplace
      · obtain rfl : q = some e := hplace
        simp [key, guard, hvalid, hdir, h.userKey hat he]
      · simp [key, guard, hvalid, hdir, hplace.1]
    · change it.value = some e.2
      rcases hdir : it.direction with _ | _
      all_goals rw [hdir] at hplace
      · obtain rfl : q = some e := hplace
        simp [value, guard, hvalid, hdir, h.value hat]
      · simp [value, guard, hvalid, hdir, hplace.2.1]

/-- **The calls of the iterator move over what the snapshot sees.** -/
theorem tracks_visible (h : Over c fuel s inner AtInner) :
    DbIterator.Tracks c.compare {x | x ∈ visible c s inner}
      fun (it : DBIter c fuel σ) p => ∃ p', p = p'.map shown ∧ AtLive s inner AtInner it p' := by
  refine ⟨?_, ?_⟩
  · rintro it _ ⟨p, rfl, hlive⟩
    exact shows_live h hlive
  · rintro it _ call ⟨p, rfl, hlive⟩ hallowed
    obtain ⟨hseq, q, hat, -⟩ := id hlive
    cases call with
    | seekToFirst =>
      obtain ⟨it', p', hstep, hlive', hfst⟩ := seekToFirst_spec h hseq hat
      refine ⟨it', _, hstep, ⟨p', rfl, hlive'⟩, ?_⟩
      simpa only [Moves, and_true, Set.ofPred_mem_eq] using isFirst_shown hfst
    | seekToLast =>
      obtain ⟨it', p', hstep, hlive', hlast⟩ := seekToLast_spec h hseq hat
      refine ⟨it', _, hstep, ⟨p', rfl, hlive'⟩, ?_⟩
      simpa only [Moves, and_true, Set.ofPred_mem_eq] using isLast_shown hlast
    | seek target =>
      obtain ⟨it', p', hstep, hlive', hfst⟩ := seek_spec h hseq hat target
      exact ⟨it', _, hstep, ⟨p', rfl, hlive'⟩, isFirst_shown hfst⟩
    | next =>
      cases p with
      | none => cases hallowed
      | some e =>
        obtain ⟨it', p', hstep, hlive', hfst⟩ := next_spec h hlive
        exact ⟨it', _, hstep, ⟨p', rfl, hlive'⟩, isFirst_shown hfst⟩
    | prev =>
      cases p with
      | none => cases hallowed
      | some e =>
        obtain ⟨it', p', hstep, hlive', hlast⟩ := prev_spec h hlive
        exact ⟨it', _, hstep, ⟨p', rfl, hlive'⟩, isLast_shown hlast⟩

/-- **The snapshot iterator is a cursor over what the snapshot sees.** The inner iterator is any
lawful iterator over strictly sorted entries with well-formed internal keys, and the loops may take
one round for each entry. -/
theorem lawful_visible {iter : σ} (hinner : DbIterator.Lawful (icmp c) inner iter)
    (hwf : ∀ e ∈ inner, IsInternalKey e.1) (hsort : Increasing (icmp c) inner)
    (hs : s ≤ maxSequenceNumber) (hfuel : inner.length ≤ fuel) :
    DbIterator.Lawful c.compare (visible c s inner)
      ({ iter, sequence := s } : DBIter c fuel σ) := by
  obtain ⟨AtInner, htracks, hat⟩ := hinner.tracks hsort
  have h : Over c fuel s inner AtInner := ⟨hwf, hsort, htracks, hfuel, hs⟩
  exact DbIterator.lawful_of_tracks (tracks_visible h) (pairwise_visible hwf hsort)
    ⟨none, rfl, rfl, none, hat, rfl⟩

end Loops

/-- A key with a version that is newer than the snapshot, a deleted key and a plain one. -/
def versions : List Pair :=
  [(internalKey [97] 5 .value, [5]), (internalKey [97] 3 .value, [3]),
    (internalKey [98] 4 .deletion, []), (internalKey [98] 2 .value, [2]),
    (internalKey [99] 1 .value, [1])]

theorem lawful_visible_versions :
    visible bytewiseComparator 4 versions = [([97], [3]), ([99], [1])] ∧
      DbIterator.Lawful bytewiseComparator.compare (visible bytewiseComparator 4 versions)
        ({ iter := ⟨versions, none⟩, sequence := 4 } :
          DBIter bytewiseComparator 5 (ListCursor (icmp bytewiseComparator))) := by
  have hwf : ∀ e ∈ versions, IsInternalKey e.1 := by
    simp only [versions, List.forall_mem_cons, List.not_mem_nil, false_implies, implies_true,
      and_true]
    exact ⟨⟨_, _, _, by decide, rfl⟩, ⟨_, _, _, by decide, rfl⟩, ⟨_, _, _, by decide, rfl⟩,
      ⟨_, _, _, by decide, rfl⟩, ⟨_, _, _, by decide, rfl⟩⟩
  exact ⟨by decide +kernel, lawful_visible (ListCursor.lawful_listCursor versions) hwf
    (by decide +kernel) (by decide) le_rfl⟩

end DBIter
end PulsearcDb
