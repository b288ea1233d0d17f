import PulsearcDb.VersionSet.CustomOrder
import PulsearcDb.DbImpl.LsmMap

/-!
# Keys that compare equal

The tree of tables under the comparator of the database. Two keys may be equal under the comparator
and differ as byte strings. The memtable asks the comparator whether an entry has the key that is
looked up (`memtable/memtable.rs`); a table compares the bytes (`table/table.rs`), as the merge of a
compaction and the hull of its inputs do.

`Lsm c` is the model of the tree for every comparator, `Lsm` the one for the order of the bytes:
`toBytes` maps one to the other when the comparator has that order, and commutes with every step. So
under the order of the bytes a tree without snapshots is a map; under every other order there is a
run after which it is not.
-/

namespace PulsearcDb

open List

/-- `internal_get_full`: the table is searched with the comparator, and the user key of the entry
that is found is compared as a byte string. -/
def internalGet (c : Comparator) (contents : ℕ → List Entry) (number : ℕ) (target : Bytes) :
    Result LookupResult :=
  match (contents number).find? fun e => icmp c e.ik target != .lt with
  | none => .ok .notFound
  | some e =>
    if e.ik.length < 8 then .error (Status.corruption "Table: malformed internal key")
    else if e.key ≠ userKey target then .ok .notFound
    else if keyTypeByte e.ik = 0 then .ok .deleted
    else if keyTypeByte e.ik = 1 then .ok (.found e.value)
    else .error (Status.corruption "Table: unknown ValueType")

namespace Lsm

variable {c : Comparator} {sizing : Sizing}

/-- `get` without a snapshot. -/
def userGet (t : Lsm c) (key : Bytes) : Result (Option Bytes) :=
  ReadView.get
    { mem := t.mem, imm := t.imm, version := t.version, lastSequence := t.lastSequence }
    (internalGet c t.contents) none key

/-- What the last write to a key has left of it, where keys that compare equal are one key. -/
def lastEqualWrite (c : Comparator) (key : Bytes) (actions : List Action) : Option Bytes :=
  actions.foldl (fun r action =>
    match action with
    | .write valueType key' value => if c.compare key' key = .eq then written valueType value else r
    | _ => r) none

/-- **Keys that compare equal are one key** for every reader of a tree without snapshots. -/
def OneKey (c : Comparator) : Prop :=
  ∀ (sizing : Sizing) (actions : List Action), (∀ action ∈ actions, action.Unpinned) →
    actions.countP Action.isWrite ≤ maxSequenceNumber →
    ∀ key, (Runs.run (step sizing) ({} : Lsm c) actions).userGet key =
      .ok (lastEqualWrite c key actions)

/-! ### The order of the bytes -/

/-- The same memtable under the bytewise comparator. -/
def toBytewise (hc : c.OrdersBytes) (m : MemTable c) : MemTable bytewiseComparator where
  entries := m.entries
  sorted := hc.icmp_eq ▸ m.sorted

/-- The same tree under the bytewise comparator. -/
def toBytes (hc : c.OrdersBytes) (t : Lsm c) : Lsm bytewiseComparator where
  version := t.version
  contents := t.contents
  nextFileNumber := t.nextFileNumber
  compactPointer := t.compactPointer
  mem := toBytewise hc t.mem
  imm := t.imm.map (toBytewise hc)
  lastSequence := t.lastSequence
  snapshots := t.snapshots

section Simulation

variable (hc : c.OrdersBytes) (t : Lsm c)
include hc

theorem edited_eq : Version.edited c = Version.edited bytewiseComparator := hc.elim fun _ _ _ => rfl

theorem pickLevelForMemtableOutput_eq : Version.pickLevelForMemtableOutput c =
    Version.pickLevelForMemtableOutput bytewiseComparator := by
  have hdeepen : Version.deepenLevel c = Version.deepenLevel bytewiseComparator :=
    hc.elim fun _ _ _ => by with_unfolding_all rfl
  unfold Version.pickLevelForMemtableOutput Version.overlapInLevel
  rw [hc.getOverlappingInputs_eq, hdeepen]

theorem toBytes_flush : (t.flush sizing).toBytes hc = (t.toBytes hc).flush sizing := by
  rw [flush, flush]
  rcases himm : t.imm with _ | m
  · simp [toBytes, himm]
  · have hmap : (t.toBytes hc).imm = some (toBytewise hc m) := by simp [toBytes, himm]
    have hents : (toBytewise hc m).entries = m.entries := rfl
    rw [hmap]
    dsimp only
    rw [hents]
    rcases m.entries.head? with _ | first
    · rfl
    · rcases m.entries.getLast? with _ | last
      · rfl
      · simp only [flushEdit, flushLevel, edited_eq hc, pickLevelForMemtableOutput_eq hc]
        rfl

/-- **One step of the tree is one step of the bytewise tree.** -/
theorem toBytes_step (action : Action) :
    (t.step sizing action).toBytes hc = (t.toBytes hc).step sizing action := by
  cases action with
  | write valueType key value =>
    have hinsert : ∀ e, toBytewise hc (t.mem.insert e) = (toBytewise hc t.mem).insert e :=
      fun e => hc.elim (motive := fun c => ∀ (hc : c.OrdersBytes) (m : MemTable c),
        toBytewise hc (m.insert e) = (toBytewise hc m).insert e) (fun _ _ _ _ _ => rfl) hc t.mem
    have hlast : (t.toBytes hc).lastSequence = t.lastSequence := rfl
    rw [step, step, hlast]
    split_ifs
    · rw [toBytes, MemTable.add, hinsert]
      rfl
    · rfl
  | rotate =>
    have himm : (t.toBytes hc).imm.isNone = t.imm.isNone := Option.isNone_map
    rw [step, step, himm]
    split_ifs <;> rfl
  | flush => exact toBytes_flush hc t
  | snapshot => rfl
  | release s => rfl
  | allocate => rfl
  | compact pick gaps succeeds =>
    have hpick : t.pickedBy pick = (t.toBytes hc).pickedBy pick := by
      unfold pickedBy
      rw [hc.pickCompaction_eq, hc.pickManualCompaction_eq]
      rfl
    have hwork : Tables.doCompactionWork sizing c =
        Tables.doCompactionWork sizing bytewiseComparator :=
      hc.elim fun _ _ _ => rfl
    rw [step, step, compact, compact, hpick]
    rcases (t.toBytes hc).pickedBy pick with _ | x
    · rfl
    · cases succeeds with
      | false => rfl
      | true =>
        simp only [doCompactionWork, hwork]
        rfl

/-- **A run of the tree is a run of the bytewise tree.** -/
theorem toBytes_run (actions : List Action) :
    (Runs.run (step sizing) ({} : Lsm c) actions).toBytes hc =
      Runs.run (step sizing) empty actions := by
  induction actions using List.reverseRecOn with
  | nil => rfl
  | append_singleton actions action ih =>
    rw [Runs.run_concat, Runs.run_concat, toBytes_step, ih]

theorem toBytewise_get (m : MemTable c) (k : Bytes) (s : ℕ) :
    (toBytewise hc m).get k s = m.get k s :=
  hc.elim (motive := fun c => ∀ (hc : c.OrdersBytes) (m : MemTable c),
    (toBytewise hc m).get k s = m.get k s) (fun _ _ _ _ _ => rfl) hc m

/-- A table whose entries are well formed is searched as under the order of the bytes. -/
theorem internalGet_lookupKey {contents : ℕ → List Entry} {number : ℕ}
    (hvalid : ∀ e ∈ contents number, e.Valid) (k : Bytes) (s : ℕ) :
    internalGet c contents number (lookupKey k s) =
      .ok (.ofAnswer (seekKey (contents number) k s)) := by
  have hpred : (fun e : Entry => icmp c e.ik (lookupKey k s) != .lt) =
      fun e => decide (ikOrd (lookupKey k s) ≤ ikOrd e.ik) := by
    funext e
    rw [hc.icmp_eq, Bool.eq_iff_iff, decide_eq_true_iff, bne_iff_ne, ← not_lt,
      ← icmp_bytewise_eq_lt]
  have huser : userKey (lookupKey k s) = k := userKey_internalKey _ _ _
  rw [internalGet, seekKey, hpred, huser]
  rcases hfind : (contents number).find? _ with _ | e
  · rfl
  · obtain ⟨key, s', valueType, hs', hik⟩ := hvalid e (mem_of_find?_eq_some hfind)
    have hlen : ¬ e.ik.length < 8 := by
      rw [hik, length_internalKey]
      omega
    have htype : keyTypeByte e.ik = valueType.toByte :=
      hik ▸ keyTypeByte_internalKey hs' key valueType
    simp only [if_neg hlen]
    by_cases hkey : e.key = k
    · rw [if_neg (not_not.mpr hkey), htype, Option.filter_some_pos (by simpa using hkey)]
      cases valueType with
      | deletion => simp [LookupResult.ofAnswer, Entry.live, htype, ValueType.toByte]
      | value => simp [LookupResult.ofAnswer, Entry.live, htype, ValueType.toByte]
    · rw [if_pos hkey, Option.filter_some_neg (by simpa using hkey)]
      rfl

/-- A read of the tree is a read of the bytewise tree. -/
theorem get_eq (hvalid : ∀ level, ∀ f ∈ t.version.files level, ∀ e ∈ t.contents f.number, e.Valid)
    (k : Bytes) : t.userGet k = (t.toBytes hc).read k := by
  have hversion : t.version.get c k (lookupKey k t.lastSequence) (internalGet c t.contents) =
      t.version.get bytewiseComparator k (lookupKey k t.lastSequence) (lookupIn t.contents) := by
    have hcandidates : Version.candidates c = Version.candidates bytewiseComparator :=
      hc.elim fun _ _ _ => rfl
    rw [Version.get, Version.get, hcandidates,
      searchFiles_eq fun f _ => lookupIn_lookupKey f.number k t.lastSequence]
    refine searchFiles_eq fun f hf => internalGet_lookupKey hc ?_ k t.lastSequence
    obtain ⟨level, -, hmem⟩ := Version.mem_of_mem_candidates hf
    exact hvalid level f hmem
  have himm : ((t.toBytes hc).imm.bind fun imm => imm.get k t.lastSequence) =
      t.imm.bind fun imm => imm.get k t.lastSequence := by
    rw [toBytes, Option.bind_map]
    simp only [Function.comp_def, toBytewise_get hc]
  have hmem : (t.toBytes hc).mem.get k t.lastSequence = t.mem.get k t.lastSequence :=
    toBytewise_get hc t.mem k _
  exact ReadView.get_congr none hmem.symm himm.symm hversion

theorem lastWrite_eq (k : Bytes) (actions : List Action) :
    lastEqualWrite c k actions = lastWrite k actions := by
  have hkey : ∀ a, c.compare a k = .eq ↔ a = k := fun a => by rw [hc, bytewise_eq_eq]
  refine congrArg (fun step => actions.foldl step none) ?_
  funext r action
  cases action <;> simp only [hkey]

/-- Under the order of the bytes every tree is a map. -/
theorem oneKey_of_ordersBytes : OneKey c := by
  intro sizing actions hactions hwrites k
  obtain ⟨⟨flushed, rotated, h⟩, -, hread⟩ := @read_run sizing actions hactions hwrites
  rw [← toBytes_run hc actions] at h hread
  rw [lastWrite_eq hc, ← hread k]
  exact get_eq hc _ (fun level f hf => (h.levels.files level f hf).valid) k

end Simulation

/-! ### Other orders -/

/-- The entry of the next write. -/
def nextEntry (t : Lsm c) (valueType : ValueType) (key value : Bytes) : Entry :=
  ⟨internalKey key (t.lastSequence + 1) valueType, value⟩

/-- The tree after one write, whose memtable is flushed to a table of its own. -/
def withTable (sizing : Sizing) (t : Lsm c) (valueType : ValueType) (key value : Bytes) : Lsm c :=
  { t with
    version := t.version.edited c
      { newFiles := [⟨t.version.pickLevelForMemtableOutput c key key,
          (TableOutput.single t.nextFileNumber (t.nextEntry valueType key value)).metadata
            sizing⟩] }
    contents := Function.update t.contents t.nextFileNumber [t.nextEntry valueType key value]
    nextFileNumber := t.nextFileNumber + 1
    lastSequence := t.lastSequence + 1 }

/-- The actions that write one entry to a table of its own. -/
def tableActions (valueType : ValueType) (key value : Bytes) : List Action :=
  [.write valueType key value, .rotate, .flush]

section Tables

variable {t : Lsm c}

theorem run_tableActions (hmem : t.mem = {}) (himm : t.imm = none)
    (hlast : t.lastSequence < maxSequenceNumber) (valueType : ValueType) (key value : Bytes) :
    Runs.run (step sizing) t (tableActions valueType key value) =
      t.withTable sizing valueType key value := by
  obtain ⟨⟨version, contents, nextFileNumber, pointer⟩, mem, imm, lastSequence, snapshots⟩ := t
  subst hmem himm
  have hlev : version.pickLevelForMemtableOutput c key key =
      version.pickLevelForMemtableOutput c (userKey (internalKey key (lastSequence + 1) valueType))
        (userKey (internalKey key (lastSequence + 1) valueType)) := by
    rw [userKey_internalKey]
  rw [tableActions, Runs.run_cons, step, if_pos hlast, withTable]
  dsimp only
  rw [hlev]
  rfl

theorem get_of_no_memtable {k : Bytes} (hmem : t.mem = {}) (himm : t.imm = none) :
    t.userGet k = t.version.get c k (lookupKey k t.lastSequence) (internalGet c t.contents) := by
  rw [userGet, ReadView.get, hmem, himm]
  rfl

/-- A read does not find a key that is in no table, even if a table has one that compares equal. -/
theorem get_of_forall_ne {k : Bytes} (hmem : t.mem = {}) (himm : t.imm = none)
    (hvalid : ∀ number, ∀ e ∈ t.contents number, e.Valid ∧ e.key ≠ k) : t.userGet k = .ok none := by
  have hlook : ∀ number, internalGet c t.contents number (lookupKey k t.lastSequence) =
      .ok (.ofAnswer none) := by
    intro number
    have huser : userKey (lookupKey k t.lastSequence) = k := userKey_internalKey _ _ _
    rw [internalGet, huser]
    rcases hfind : (t.contents number).find? _ with _ | e
    · rfl
    · obtain ⟨⟨key, s, valueType, -, hik⟩, hne⟩ := hvalid number e (mem_of_find?_eq_some hfind)
      have hlen : ¬ e.ik.length < 8 := by
        rw [hik, length_internalKey]
        omega
      simp only [if_neg hlen, if_pos hne]
      rfl
  rw [get_of_no_memtable hmem himm, Version.get]
  refine (searchFiles_eq fun f _ => hlook f.number).trans ?_
  rw [findSome?_eq_none_iff.mpr fun _ _ => rfl, Option.bind_none]

/-- A key that has gone to a table is not found under another key that compares equal. -/
theorem get_equal_key {a b : Bytes} (hne : a ≠ b) (value : Bytes) :
    (Runs.run (step sizing) ({} : Lsm c) (tableActions .value a value)).userGet b = .ok none := by
  rw [run_tableActions rfl rfl (show 0 < maxSequenceNumber by decide)]
  refine get_of_forall_ne rfl rfl fun number e he => ?_
  have hentry : e = nextEntry ({} : Lsm c) .value a value := by
    simp only [withTable, Function.update_apply] at he
    split_ifs at he
    · exact mem_singleton.mp he
    · cases he
  subst hentry
  exact ⟨⟨a, 1, .value, by decide, rfl⟩, by rwa [Entry.key, nextEntry, userKey_internalKey]⟩

end Tables

/-! A tombstone that is dropped above a value. -/

section Swapped

/-- A file with one entry. -/
def oneFile (number sequence : ℕ) (valueType : ValueType) (key : Bytes) : FileMetaData where
  number
  fileSize := 100
  smallest := internalKey key sequence valueType
  largest := internalKey key sequence valueType

@[simp] theorem fileSize_oneFile (number s : ℕ) (valueType : ValueType) (key : Bytes) :
    (oneFile number s valueType key).fileSize = 100 := rfl

@[simp] theorem start_oneFile (number s : ℕ) (valueType : ValueType) (key : Bytes) :
    (oneFile number s valueType key).start = key := userKey_internalKey _ _ _

@[simp] theorem limit_oneFile (number s : ℕ) (valueType : ValueType) (key : Bytes) :
    (oneFile number s valueType key).limit = key := userKey_internalKey _ _ _

/-- Files in the levels 1 and 2 only. -/
def twoLevels (level1 level2 : List FileMetaData) (level : ℕ) : List FileMetaData :=
  if level = 1 then level1 else if level = 2 then level2 else []

/-- Tables so small that no limit on the sizes is reached. -/
def smallSizing : Sizing := ⟨fun _ => 100, fun _ => 100⟩

variable {v : Version} {level1 level2 : List FileMetaData} {key : Bytes}

theorem pickLevelForMemtableOutput_twoLevels (hv : v.files = twoLevels level1 level2)
    (hlevel1 : level1.filter (overlaps c (some key) (some key)) = [])
    (hsizes : totalFileSize (level2.filter (overlaps c (some key) (some key))) ≤
      maxGrandparentOverlapBytes) :
    v.pickLevelForMemtableOutput c key key =
      if level2.filter (overlaps c (some key) (some key)) = [] then 2 else 1 := by
  have h0 : v.overlapInLevel c 0 (some key) (some key) = false := by
    rw [Version.overlapInLevel, Version.getOverlappingInputs, hv, overlapLoop]
    rfl
  have h1 : v.overlapInLevel c 1 (some key) (some key) = false := by
    rw [Version.overlapInLevel, Version.getOverlappingInputs_of_ne _ _ one_ne_zero, hv]
    exact congrArg (fun l => !List.isEmpty l) hlevel1
  have h2 : v.getOverlappingInputs c 2 (some key) (some key) =
      level2.filter (overlaps c (some key) (some key)) := by
    rw [Version.getOverlappingInputs_of_ne _ _ two_ne_zero, hv]
    rfl
  have h3 : v.getOverlappingInputs c 3 (some key) (some key) = [] := by
    rw [Version.getOverlappingInputs_of_ne _ _ three_ne_zero, hv]
    rfl
  rw [Version.pickLevelForMemtableOutput, h0, Version.deepenLevel, h1, h2,
    Version.deepenLevel, Version.overlapInLevel, h2, h3, Version.deepenLevel]
  by_cases hnil : level2.filter (overlaps c (some key) (some key)) = []
  · simp [hnil, maxMemCompactLevel, totalFileSize]
  · simp [hnil, maxMemCompactLevel, hsizes]

theorem files_edited_twoLevels {edit : VersionEdit} {kept1 kept2 added1 added2 : List FileMetaData}
    (hkept : ∀ level, remaining v edit level = twoLevels kept1 kept2 level)
    (hadded : ∀ level, edit.addedAt level = twoLevels added1 added2 level) :
    (v.edited c edit).files =
      twoLevels ((kept1 ++ added1).insertionSort (FileOrder c 1))
        ((kept2 ++ added2).insertionSort (FileOrder c 2)) := by
  funext level
  by_cases hlev : level < numLevels
  · rw [Version.edited, VersionBuilder.files_edited _ _ _ hlev, ← remaining, hkept, hadded]
    unfold twoLevels
    split_ifs with h1 h2
    · rw [h1]
    · rw [h2]
    · rfl
  · have h1 : level ≠ 1 := by
      rintro rfl
      exact hlev (by decide)
    have h2 : level ≠ 2 := by
      rintro rfl
      exact hlev (by decide)
    rw [Version.edited, VersionBuilder.files_saveTo, if_neg hlev, twoLevels, if_neg h1, if_neg h2]

private theorem addedAt_twoLevels (f : FileMetaData) (level : ℕ) :
    VersionEdit.addedAt { newFiles := [⟨1, f⟩] } level = twoLevels [f] [] level ∧
      VersionEdit.addedAt { newFiles := [⟨2, f⟩] } level = twoLevels [] [f] level := by
  unfold twoLevels
  split_ifs with h1 h2
  · subst h1
    exact ⟨rfl, rfl⟩
  · subst h2
    exact ⟨rfl, rfl⟩
  · simp [VersionEdit.addedAt, Ne.symm h1, Ne.symm h2]

/-- A new table goes to level 2, or to level 1 when its key is in level 2. -/
theorem files_withTable {t : Lsm c} {valueType : ValueType} {value : Bytes}
    (hv : t.version.files = twoLevels level1 level2)
    (hlevel1 : level1.filter (overlaps c (some key) (some key)) = [])
    (hsizes : totalFileSize (level2.filter (overlaps c (some key) (some key))) ≤
      maxGrandparentOverlapBytes) :
    (t.withTable smallSizing valueType key value).version.files =
      if level2.filter (overlaps c (some key) (some key)) = [] then
        twoLevels (level1.insertionSort (FileOrder c 1))
          ((level2 ++ [oneFile t.nextFileNumber (t.lastSequence + 1) valueType key]).insertionSort
            (FileOrder c 2))
      else
        twoLevels
          ((level1 ++ [oneFile t.nextFileNumber (t.lastSequence + 1) valueType key]).insertionSort
            (FileOrder c 1))
          (level2.insertionSort (FileOrder c 2)) := by
  have hkept : ∀ newFiles level, remaining t.version { newFiles } level =
      twoLevels level1 level2 level := by
    intro newFiles level
    rw [remaining, hv, filter_eq_self]
    intro f _
    rw [decide_eq_true_iff, VersionBuilder.mem_deletedFiles_apply]
    rintro ⟨h | ⟨d, hd, -⟩, -⟩
    · exact Finset.notMem_empty _ h
    · exact not_mem_nil hd
  rw [withTable]
  dsimp only
  rw [pickLevelForMemtableOutput_twoLevels hv hlevel1 hsizes]
  split_ifs with hnil
  · rw [files_edited_twoLevels (hkept _) fun _ => (addedAt_twoLevels _ _).2, append_nil]
    rfl
  · rw [files_edited_twoLevels (hkept _) fun _ => (addedAt_twoLevels _ _).1, append_nil]
    rfl

theorem overlaps_oneFile (number s : ℕ) (valueType : ValueType) (k k' : Bytes) :
    overlaps c (some k) (some k) (oneFile number s valueType k') = (c.compare k' k == .eq) := by
  rw [overlaps, start_oneFile, limit_oneFile, Option.any_some, Option.any_some]
  rcases c.compare k' k with _ | _ | _ <;> rfl

/-- Two values of `b` and `a` in level 2; above them in level 1 a new value of `a` and a tombstone
of `b`. -/
def swappedTree (c : Comparator) (a b : Bytes) : Lsm c :=
  (((withTable smallSizing {} .value b [1]).withTable smallSizing .value a [2]).withTable
    smallSizing .value a [3]).withTable smallSizing .deletion b []

section Run

variable {a b : Bytes} {n m s s' level : ℕ} {ty ty' : ValueType}

/-- Among the internal keys of one user key the newer one comes first. -/
private theorem icmp_of_lt (c : Comparator) (k : Bytes) (hs : s < s')
    (hmax : s' ≤ maxSequenceNumber) :
    icmp c (internalKey k s .value) (internalKey k s' .value) = .gt := by
  rw [icmp, userKey_internalKey, userKey_internalKey, @Std.ReflCmp.compare_self _ c.compare]
  dsimp only
  rw [keyTag_internalKey hmax, keyTag_internalKey (hs.le.trans hmax), compare_gt_iff_gt]
  omega

private theorem fileOrder_of_lt (hlt : c.compare a b = .lt) (hlev : level ≠ 0) :
    FileOrder c level (oneFile n s ty a) (oneFile m s' ty' b) ∧
      ¬ FileOrder c level (oneFile m s' ty' b) (oneFile n s ty a) := by
  simp only [FileOrder, if_neg hlev, oneFile, icmp, userKey_internalKey, hlt,
    Std.OrientedCmp.gt_of_lt hlt]
  exact ⟨rfl, Bool.false_ne_true⟩

variable (hlt : c.compare a b = .lt)
include hlt

theorem files_swappedTree : (swappedTree c a b).version.files =
    twoLevels [oneFile 4 3 .value a, oneFile 5 4 .deletion b]
      [oneFile 3 2 .value a, oneFile 2 1 .value b] := by
  have hgt : c.compare b a = .gt := Std.OrientedCmp.gt_of_lt hlt
  have haa : c.compare a a = .eq := Std.ReflCmp.compare_self
  have hbb : c.compare b b = .eq := Std.ReflCmp.compare_self
  have hsort : ∀ level ≠ 0, ∀ n s ty m s' ty',
      [oneFile n s ty a, oneFile m s' ty' b].insertionSort (FileOrder c level) =
        [oneFile n s ty a, oneFile m s' ty' b] := fun level hlev n s ty m s' ty' => by
    simp [List.insertionSort, (fileOrder_of_lt hlt hlev).1]
  have hswapped : ∀ level ≠ 0, ∀ n s ty m s' ty',
      [oneFile m s' ty' b, oneFile n s ty a].insertionSort (FileOrder c level) =
        [oneFile n s ty a, oneFile m s' ty' b] := fun level hlev n s ty m s' ty' => by
    simp [List.insertionSort, (fileOrder_of_lt hlt hlev).2]
  have h0 : ({} : Lsm c).version.files = twoLevels [] [] := by
    funext level
    simp [twoLevels]
  have h1 : (withTable smallSizing ({} : Lsm c) .value b [1]).version.files =
      twoLevels [] [oneFile 2 1 .value b] := files_withTable h0 rfl (Nat.zero_le _)
  have h2 : ((withTable smallSizing ({} : Lsm c) .value b [1]).withTable smallSizing .value a
      [2]).version.files = twoLevels [] [oneFile 3 2 .value a, oneFile 2 1 .value b] := by
    rw [files_withTable h1 rfl, if_pos]
    · exact congrArg (twoLevels []) (hswapped 2 two_ne_zero _ _ _ _ _ _)
    all_goals simp [overlaps_oneFile, hgt, totalFileSize]
  have h3 : (((withTable smallSizing ({} : Lsm c) .value b [1]).withTable smallSizing .value a
      [2]).withTable smallSizing .value a [3]).version.files =
      twoLevels [oneFile 4 3 .value a] [oneFile 3 2 .value a, oneFile 2 1 .value b] := by
    rw [files_withTable h2 rfl, if_neg]
    · exact congrArg (twoLevels _) (hsort 2 two_ne_zero _ _ _ _ _ _)
    all_goals simp [overlaps_oneFile, hgt, haa, totalFileSize, maxGrandparentOverlapBytes]
  rw [swappedTree, files_withTable h3, if_neg]
  · exact congrArg₂ twoLevels (hsort 1 one_ne_zero _ _ _ _ _ _) (hsort 2 two_ne_zero _ _ _ _ _ _)
  all_goals simp [overlaps_oneFile, hlt, hbb, totalFileSize, maxGrandparentOverlapBytes]

/-- The hull of the two files is empty under the comparator, so that the files below are
no inputs. -/
theorem pickedBy_swappedTree (hb : b < a) :
    ∃ x, (swappedTree c a b).pickedBy (.manual 1 none none) = some x ∧ x.level = 1 ∧
      x.inputs0 = [oneFile 4 3 .value a, oneFile 5 4 .deletion b] ∧ x.inputs1 = [] ∧
      x.inputVersion = (swappedTree c a b).version := by
  have hfiles := files_swappedTree hlt
  have hgt : c.compare b a = .gt := Std.OrientedCmp.gt_of_lt hlt
  rw [pickedBy]
  generalize (swappedTree c a b).version = v at *
  have hall : v.getOverlappingInputs c 1 none none =
      [oneFile 4 3 .value a, oneFile 5 4 .deletion b] := by
    rw [Version.getOverlappingInputs_of_ne _ _ one_ne_zero, hfiles]
    rfl
  have hhull : getUserRange [oneFile 4 3 .value a, oneFile 5 4 .deletion b] = (b, a) := by
    simp [getUserRange, hb, hb.not_gt]
  have hnone :
      Compaction.overlapped c 1 v [oneFile 4 3 .value a, oneFile 5 4 .deletion b] = [] := by
    rw [Compaction.overlapped, hhull, Version.getOverlappingInputs_of_ne _ _ two_ne_zero, hfiles]
    simp [twoLevels, overlaps, hlt, hgt]
  have hins : Compaction.expandInputs c 1 v [oneFile 4 3 .value a, oneFile 5 4 .deletion b] =
      ([oneFile 4 3 .value a, oneFile 5 4 .deletion b], []) := by
    rw [Compaction.expandInputs, hnone]
    rfl
  refine ⟨Compaction.setupOtherInputs c 1 v [oneFile 4 3 .value a, oneFile 5 4 .deletion b],
    ?_, rfl, ?_, ?_, rfl⟩
  · rw [Version.pickManualCompaction, hall]
    rfl
  · rw [Compaction.setupOtherInputs, hins]
  · rw [Compaction.setupOtherInputs, hins]

/-- The merge drops the tombstone. -/
theorem merge_swappedTree {x : Compaction} (hlev : x.level = 1)
    (hinputs0 : x.inputs0 = [oneFile 4 3 .value a, oneFile 5 4 .deletion b])
    (hinputs1 : x.inputs1 = []) (hversion : x.inputVersion = (swappedTree c a b).version) :
    (((swappedTree c a b).movePointer x).merge smallSizing (fun _ => 0) x).tables =
      [TableOutput.single 6 ⟨internalKey a 3 .value, [3]⟩] := by
  have hents : x.entries c (swappedTree c a b).contents =
      [⟨internalKey a 3 .value, [3]⟩, ⟨internalKey b 4 .deletion, []⟩] := by
    have hicmp : icmp c (internalKey a 3 .value) (internalKey b 4 .deletion) = .lt := by
      rw [icmp, userKey_internalKey, userKey_internalKey, hlt]
    have hunsorted : ((x.inputs0 ++ x.inputs1).flatMap
        fun f => (swappedTree c a b).contents f.number) =
        [⟨internalKey a 3 .value, [3]⟩, ⟨internalKey b 4 .deletion, []⟩] := by
      rw [hinputs0, hinputs1]
      rfl
    rw [Compaction.entries, hunsorted]
    simp [List.insertionSort, hicmp]
  have hbase : x.isBaseLevelForKey c b = true := by
    rw [Compaction.isBaseLevelForKey, hlev, hversion, files_swappedTree hlt]
    rfl
  have hval : keyTypeByte (internalKey a 3 .value) = 1 := keyTypeByte_internalKey (by decide) _ _
  have htombstone : keyTypeByte (internalKey b 4 .deletion) = 0 :=
    keyTypeByte_internalKey (by decide) _ _
  have hseq : keySequence (internalKey b 4 .deletion) = 4 := keySequence_internalKey (by decide) _ _
  have hkeep : dropsEntry (x.isBaseLevelForKey c) 4 none (2 ^ 64 - 1)
      ⟨internalKey a 3 .value, [3]⟩ = false := by
    simp [dropsEntry, hval, ValueType.toByte]
  have hdrop : ∀ last lastSequence, dropsEntry (x.isBaseLevelForKey c) 4 last lastSequence
      ⟨internalKey b 4 .deletion, []⟩ = true := by
    simp [dropsEntry, htombstone, hseq, ValueType.toByte, Entry.sequence, Entry.key, hbase]
  have hfst : MergeState.step smallSizing (fun _ => 0) (x.isBaseLevelForKey c) 4
      { nextFileNumber := 6 } ⟨internalKey a 3 .value, [3]⟩ =
      { builder := some (.single 6 ⟨internalKey a 3 .value, [3]⟩)
        lastUserKey := some (Entry.key ⟨internalKey a 3 .value, [3]⟩)
        lastSequenceForKey := Entry.sequence ⟨internalKey a 3 .value, [3]⟩
        nextFileNumber := 7 } := by
    rw [MergeState.step, hkeep]
    rfl
  have hmerge : ((swappedTree c a b).movePointer x).merge smallSizing (fun _ => 0) x =
      mergeEntries smallSizing (fun _ => 0) (x.isBaseLevelForKey c) 4 6
        (x.entries c (swappedTree c a b).contents) := rfl
  rw [hmerge, hents, mergeEntries, foldl_cons, hfst, foldl_cons, MergeState.step, hdrop]
  rfl

/-- The edit of the compaction. -/
private theorem files_mergeEdit {edit : VersionEdit}
    (hdeleted : edit.deletedFiles = [⟨1, 4⟩, ⟨1, 5⟩])
    (hnew : edit.newFiles = [⟨2, oneFile 6 3 .value a⟩]) :
    ((swappedTree c a b).version.edited c edit).files =
      twoLevels [] [oneFile 6 3 .value a, oneFile 3 2 .value a, oneFile 2 1 .value b] := by
  have hkept : ∀ level, remaining (swappedTree c a b).version edit level =
      twoLevels [] [oneFile 3 2 .value a, oneFile 2 1 .value b] level := by
    intro level
    rw [remaining, files_swappedTree hlt, VersionBuilder.apply, hdeleted, hnew]
    unfold twoLevels
    split_ifs with h1 h2
    · subst h1
      rfl
    · subst h2
      rfl
    · rfl
  have hadded : ∀ level, edit.addedAt level = twoLevels [] [oneFile 6 3 .value a] level := by
    intro level
    rw [← (addedAt_twoLevels _ _).2, VersionEdit.addedAt, hnew, VersionEdit.addedAt]
  have hnewer : ¬ FileOrder c 2 (oneFile 3 2 .value a) (oneFile 6 3 .value a) := by
    rw [FileOrder, if_neg two_ne_zero, oneFile, oneFile, icmp_of_lt c a (by decide) (by decide)]
    exact Bool.false_ne_true
  rw [files_edited_twoLevels hkept hadded]
  simp [List.insertionSort, hnewer, fileOrder_of_lt hlt]

private theorem candidates_twoLevels (hv : v.files =
    twoLevels [] [oneFile 6 3 .value a, oneFile 3 2 .value a, oneFile 2 1 .value b]) :
    v.candidates c b (lookupKey b 4) = [oneFile 2 1 .value b] := by
  have hbefore : ∀ n s, icmp c (oneFile n s .value a).largest (lookupKey b 4) = .lt := by
    intro n s
    rw [oneFile, lookupKey, icmp, userKey_internalKey, userKey_internalKey, hlt]
  have hreach : icmp c (oneFile 2 1 .value b).largest (lookupKey b 4) = .gt :=
    icmp_of_lt c b (by decide) (by decide)
  have hfind : findFile c [oneFile 6 3 .value a, oneFile 3 2 .value a, oneFile 2 1 .value b]
      (lookupKey b 4) = 2 := by
    simp [findFile, PartitionPoint.partitionPoint, PartitionPoint.partitionLoop, hbefore, hreach]
  have hlevel2 : v.levelCandidate c b (lookupKey b 4) 2 = some (oneFile 2 1 .value b) := by
    have hfiles : v.files 2 =
        [oneFile 6 3 .value a, oneFile 3 2 .value a, oneFile 2 1 .value b] := by
      rw [hv]
      rfl
    have hstart : c.compare b (userKey (oneFile 2 1 .value b).smallest) = .eq := by
      rw [oneFile, userKey_internalKey, @Std.ReflCmp.compare_self _ c.compare]
    simp [Version.levelCandidate, hfiles, hfind, hstart]
  have hother : ∀ level, level ≠ 2 → v.levelCandidate c b (lookupKey b 4) level = none := by
    intro level hne
    have hfiles : v.files level = [] := by
      rw [hv, twoLevels, if_neg hne, ite_self]
    simp [Version.levelCandidate, hfiles]
  have hlevel0 : v.level0Candidates c b = [] := by
    rw [Version.level0Candidates, hv]
    rfl
  have hlevels : Version.deeperLevels = [1, 2, 3, 4, 5, 6] := rfl
  rw [Version.candidates, hlevel0, hlevels]
  simp [hlevel2, hother]

/-- **A tombstone that is dropped above a value.** The compaction of level 1 leaves the value of `b`
in level 2 alone and drops its tombstone. -/
theorem get_swappedTree (hb : b < a) :
    (step smallSizing (swappedTree c a b)
      (.compact (.manual 1 none none) (fun _ => 0) true)).userGet b = .ok (some [1]) := by
  obtain ⟨x, hx, hlev, hinputs0, hinputs1, hversion⟩ := pickedBy_swappedTree hlt hb
  have hmerge := merge_swappedTree hlt hlev hinputs0 hinputs1 hversion
  have hmove : x.isTrivialMove = false := by
    rw [Compaction.isTrivialMove, hinputs0]
    rfl
  have hdeleted : ∀ outputs, (mergeEdit smallSizing x outputs).deletedFiles = [⟨1, 4⟩, ⟨1, 5⟩] := by
    intro outputs
    rw [mergeEdit, hlev, hinputs0, hinputs1]
    rfl
  have hnew : (mergeEdit smallSizing x [.single 6 ⟨internalKey a 3 .value, [3]⟩]).newFiles =
      [⟨2, oneFile 6 3 .value a⟩] := by
    rw [mergeEdit, hlev]
    rfl
  have hval : internalGet c (writeTables (swappedTree c a b).contents
      [.single 6 ⟨internalKey a 3 .value, [3]⟩]) 2 (lookupKey b 4) = .ok (.found [1]) := by
    have hcont : writeTables (swappedTree c a b).contents
        [.single 6 ⟨internalKey a 3 .value, [3]⟩] 2 = [⟨internalKey b 1 .value, [1]⟩] := rfl
    have htype : keyTypeByte (internalKey b 1 .value) = 1 := keyTypeByte_internalKey (by decide) _ _
    have hfind : [(⟨internalKey b 1 .value, [1]⟩ : Entry)].find?
        (fun e => icmp c e.ik (lookupKey b 4) != .lt) = some ⟨internalKey b 1 .value, [1]⟩ :=
      find?_cons_of_pos (by rw [lookupKey, icmp_of_lt c b (by decide) (by decide)]; rfl)
    rw [internalGet, hcont, hfind]
    simp [Entry.key, lookupKey, length_internalKey, htype]
  rw [step, compact, hx]
  dsimp only
  rw [if_pos rfl, doCompactionWork, Tables.doCompactionWork, hmove, if_neg Bool.false_ne_true]
  dsimp only
  rw [merge] at hmerge
  rw [hmerge, get_of_no_memtable rfl rfl, Version.get]
  have hcandidates := candidates_twoLevels hlt (files_mergeEdit hlt (hdeleted _) hnew)
  have hlast : (swappedTree c a b).lastSequence = 4 := rfl
  rw [movePointer, Tables.movePointer] at *
  dsimp only
  rw [hlast, hcandidates, Version.searchFiles, oneFile]
  dsimp only
  rw [hval]

end Run

/-- Four tables of one entry, and a compaction of level 1. -/
def swappedActions (a b : Bytes) : List Action :=
  tableActions .value b [1] ++ (tableActions .value a [2] ++ (tableActions .value a [3] ++
    (tableActions .deletion b [] ++ [.compact (.manual 1 none none) (fun _ => 0) true])))

theorem run_swappedActions (a b : Bytes) :
    Runs.run (step smallSizing) ({} : Lsm c) (swappedActions a b) =
      step smallSizing (swappedTree c a b) (.compact (.manual 1 none none) (fun _ => 0) true) := by
  rw [swappedActions, Runs.run_append,
    run_tableActions rfl rfl (show 0 < maxSequenceNumber by decide),
    Runs.run_append, run_tableActions rfl rfl (show 1 < maxSequenceNumber by decide),
    Runs.run_append, run_tableActions rfl rfl (show 2 < maxSequenceNumber by decide),
    Runs.run_append, run_tableActions rfl rfl (show 3 < maxSequenceNumber by decide)]
  rfl

end Swapped

/-- `u8::to_ascii_lowercase`. -/
def lower (byte : UInt8) : UInt8 := if 65 ≤ byte ∧ byte ≤ 90 then byte + 32 else byte

/-- A comparator that does not tell capital letters from small ones. -/
def ignoringCase : Comparator where
  name := "myapp.IgnoringCase"
  compare a b := BytewiseComparator.compare (a.map lower) (b.map lower)
  findShortestSeparator start _ := start
  findShortSuccessor key := key
  transCmp :=
    { eq_swap := Std.OrientedCmp.eq_swap
      isLE_trans := fun h h' => Std.TransCmp.isLE_trans h h' }

end Lsm
end PulsearcDb
