import PulsearcDb.Log.Replay
import PulsearcDb.VersionSet.Version

/-!
# The manifest

`VersionSet::log_and_apply` and `VersionSet::recover` of `version_set/version_set.rs`. The version
set keeps the current version in memory and logs every change of it, as an encoded `VersionEdit`,
in the manifest that the file `CURRENT` names. The first call after the version set was created or
recovered starts a new manifest with a record of the whole current version.

Every file operation of a call may fail, as the `CallIo` of the call says. When the manifest is
not new, a failed call keeps writing to it.

The directory is what the two functions see of it: the manifests by number, and the number in
`CURRENT`.
-/

namespace PulsearcDb

/-- The manifests on disk and the number that `CURRENT` names. -/
structure Directory where
  manifests : ℕ → Option Bytes := fun _ => none
  current : Option ℕ := none

/-- The directory with the contents of one manifest replaced. -/
def Directory.write (dir : Directory) (number : ℕ) (bytes : Bytes) : Directory :=
  { dir with manifests := Function.update dir.manifests number (some bytes) }

/-- `struct VersionSet`. `manifest` is `manifest_log` with `manifest_file`. -/
structure VersionSet where
  current : Version := {}
  nextFileNumber : ℕ := 2
  manifestFileNumber : ℕ := 0
  lastSequence : ℕ := 0
  logNumber : ℕ := 0
  prevLogNumber : ℕ := 0
  manifest : Option LogFile := none
  compactPointer : ℕ → Bytes := fun _ => []
  recoveredComparatorName : Option Bytes := none

/-- A version set and the directory it works in. -/
structure MetaState where
  vs : VersionSet := {}
  dir : Directory := {}

/-- The fate of the file operations of one `log_and_apply`: creating a manifest, appending the
snapshot record, appending the edit, syncing, and replacing `CURRENT`. -/
structure CallIo where
  create : Bool := true
  snapshot : Option Fault := none
  append : Option Fault := none
  sync : Option Fault := none
  setCurrent : Bool := true

namespace VersionSet

/-- The numbers that `log_and_apply` fills in before it writes an edit. -/
def stash (vs : VersionSet) (edit : VersionEdit) : VersionEdit :=
  { edit with
    logNumber := some (edit.logNumber.getD vs.logNumber)
    prevLogNumber := some (edit.prevLogNumber.getD vs.prevLogNumber)
    nextFileNumber := some vs.nextFileNumber
    lastSequence := some vs.lastSequence }

/-- The compact pointers of an edit. -/
def setCompactPointers (vs : VersionSet) (pointers : List CompactPointer) : VersionSet :=
  { vs with compactPointer :=
      pointers.foldl (fun p cp => Function.update p cp.level cp.key) vs.compactPointer }

/-- The whole state as one edit. -/
def snapshotEdit (vs : VersionSet) (c : Comparator) : VersionEdit where
  comparator := some c.name.toUTF8.toList
  logNumber := some vs.logNumber
  prevLogNumber := some vs.prevLogNumber
  nextFileNumber := some vs.nextFileNumber
  lastSequence := some vs.lastSequence
  compactPointers := (List.range numLevels).filterMap fun level =>
    if (vs.compactPointer level).isEmpty then none else some ⟨level, vs.compactPointer level⟩
  newFiles := (List.range numLevels).flatMap fun level =>
    (vs.current.files level).map fun f => ⟨level, f⟩

/-- The end of a successful `log_and_apply`. -/
def install (vs : VersionSet) (edit : VersionEdit) (newVersion : Version) : VersionSet :=
  { vs with
    logNumber := edit.logNumber.getD vs.logNumber
    prevLogNumber := edit.prevLogNumber.getD vs.prevLogNumber
    current := newVersion }

end VersionSet

/-- `append_to_manifest`, under a fault of its own. -/
def appendToManifest (m : LogFile) (fault : Option Fault) (edit : VersionEdit) : Outcome LogFile :=
  m.addRecordUnder fault edit.encode []

/-- `sync_manifest`, under a fault of its own. -/
def syncManifest (m : LogFile) (fault : Option Fault) : Outcome LogFile :=
  m.syncUnder fault

namespace MetaState

/-- The manifest that is open, and its bytes on disk. -/
def storeManifest (s : MetaState) (m : LogFile) : MetaState where
  vs := { s.vs with manifest := some m }
  dir := s.dir.write s.vs.manifestFileNumber m.file.flushed

/-- `abandon_manifest`: the file is closed, whatever that makes of its buffer. -/
def abandonManifest (s : MetaState) (m : LogFile) : MetaState where
  vs := { s.vs with manifest := none }
  dir := s.dir.write s.vs.manifestFileNumber m.file.accepted

/-- `CURRENT` names the manifest. -/
def setCurrentFile (s : MetaState) : MetaState :=
  { s with dir := { s.dir with current := some s.vs.manifestFileNumber } }

/-- `log_and_apply` on the manifest that is open. -/
def logToOpenManifest (s : MetaState) (io : CallIo) (m : LogFile) (edit : VersionEdit)
    (newVersion : Version) : Outcome MetaState :=
  match appendToManifest m io.append edit with
  | (.error e, m₁) => (.error e, s.storeManifest m₁)
  | (.ok _, m₁) =>
    match syncManifest m₁ io.sync with
    | (.error e, m₂) => (.error e, s.storeManifest m₂)
    | (.ok _, m₂) =>
      let s' := s.storeManifest m₂
      (.ok (), { s' with vs := s'.vs.install edit newVersion })

/-- The number of a new manifest is taken from the file numbers. -/
def startManifest (s : MetaState) : MetaState :=
  { s with vs := { s.vs with
      manifestFileNumber := s.vs.nextFileNumber
      nextFileNumber := s.vs.nextFileNumber + 1 } }

/-- `log_and_apply` on the manifest that it has just numbered. -/
def logToNewManifest (s : MetaState) (c : Comparator) (io : CallIo) (edit : VersionEdit)
    (newVersion : Version) : Outcome MetaState :=
  if io.create then
    match appendToManifest {} io.snapshot (s.vs.snapshotEdit c) with
    | (.error e, m) => (.error e, s.abandonManifest m)
    | (.ok _, m) =>
      match appendToManifest m io.append edit with
      | (.error e, m₁) => (.error e, s.abandonManifest m₁)
      | (.ok _, m₁) =>
        match syncManifest m₁ io.sync with
        | (.error e, m₂) => (.error e, s.abandonManifest m₂)
        | (.ok _, m₂) =>
          if io.setCurrent then
            let s' := (s.storeManifest m₂).setCurrentFile
            (.ok (), { s' with vs := s'.vs.install edit newVersion })
          else (.error (Status.ioError "set_current_file"), s.abandonManifest m₂)
  else (.error (Status.ioError "new_writable_file"), s)

/-- Write the edit to the manifest, then install it. -/
def logAndApply (s : MetaState) (c : Comparator) (io : CallIo) (edit : VersionEdit) :
    Outcome MetaState :=
  let edit := s.vs.stash edit
  let newVersion := (VersionBuilder.apply { base := s.vs.current } edit).saveTo c
  let s' := { s with vs := s.vs.setCompactPointers edit.compactPointers }
  match s'.vs.manifest with
  | none => s'.startManifest.logToNewManifest c io edit newVersion
  | some m => s'.logToOpenManifest io m edit newVersion

end MetaState

/-! ### Recovery -/

/-- The variables of the loop of `recover`. -/
structure RecoverState where
  vs : VersionSet
  builder : VersionBuilder
  haveNextFile : Bool := false
  haveLastSequence : Bool := false

namespace RecoverState

/-- One record of the manifest. -/
def apply (st : RecoverState) (edit : VersionEdit) : RecoverState where
  vs :=
    { st.vs.setCompactPointers edit.compactPointers with
      logNumber := edit.logNumber.getD st.vs.logNumber
      prevLogNumber := edit.prevLogNumber.getD st.vs.prevLogNumber
      nextFileNumber := edit.nextFileNumber.getD st.vs.nextFileNumber
      lastSequence := edit.lastSequence.getD st.vs.lastSequence
      recoveredComparatorName := edit.comparator <|> st.vs.recoveredComparatorName }
  builder := st.builder.apply edit
  haveNextFile := st.haveNextFile || edit.nextFileNumber.isSome
  haveLastSequence := st.haveLastSequence || edit.lastSequence.isSome

/-- The body of the loop of `recover`. -/
def replayRecord (st : RecoverState) (record : Bytes) : Outcome RecoverState :=
  match VersionEdit.decodeFrom record with
  | .error e => (.error e, st)
  | .ok (edit, _) => (.ok (), st.apply edit)

end RecoverState

/-- The end of `recover`. -/
def RecoverState.finish (st : RecoverState) (c : Comparator) : Result VersionSet :=
  if st.haveNextFile && st.haveLastSequence then
    .ok { st.vs with current := st.builder.saveTo c, manifest := none }
  else .error (Status.corruption "manifest: missing required fields")

/-- `recover`, on a version set that has just been created. -/
def VersionSet.recover (c : Comparator) (dir : Directory) : Result VersionSet :=
  match dir.current with
  | none => .error (Status.ioError "not found: CURRENT")
  | some number =>
    match dir.manifests number with
    | none => .error (Status.ioError "not found: MANIFEST")
    | some bytes =>
      match Log.replay RecoverState.replayRecord { vs := {}, builder := { base := {} } } bytes with
      | (.error e, _) => .error e
      | (.ok _, st) => st.finish c

end PulsearcDb
