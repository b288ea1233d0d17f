import PulsearcDb.DbImpl.Background

/-!
# Sticky background errors

`bg_error` is meant to stop a database for good: once an edit could not be written, or a sync of the
log has failed, the manifest is not to be touched and no write is to be acknowledged any more
(`db_impl/db_impl.rs`). It is set at the end of a cycle of the worker and when a writer group with a
failed sync is published, and it is looked at when the worker starts a cycle and when a leader takes
the log.

That leaves gaps. The error of a manual compaction goes to its caller only, and the caller of a
manual compaction looks at `bg_error` only while it waits. Between a failure and the section that
records it, the other threads go on, and what has passed its check before the failure is not checked
again. `Careful` says which steps fall into a gap; in runs without them errors are sticky.
-/

namespace PulsearcDb

namespace Event

/-- A failure that is to stop the database. -/
def isFailure : Event → Bool
  | applyFailed | syncFailed => true
  | applied | acked => false

/-- What is not to happen behind a failure: the manifest is appended to, or a write
is acknowledged. -/
def isEffect : Event → Bool
  | applied | applyFailed | acked => true
  | syncFailed => false

/-- **Errors are sticky.** -/
def Sticky (events : List Event) : Prop :=
  events.Pairwise fun a b => a.isFailure = true → b.isEffect = false

instance (events : List Event) : Decidable (Sticky events) :=
  inferInstanceAs (Decidable (List.Pairwise _ _))

theorem Sticky.append_of_forall {events : List Event} (h : Sticky events) (e : Event)
    (hnone : ∀ a ∈ events, a.isFailure = false) : Sticky (events ++ [e]) := by
  refine List.pairwise_append.mpr ⟨h, List.pairwise_singleton _ _, fun a ha b _ hf => ?_⟩
  rw [hnone a ha] at hf
  cases hf

end Event

namespace Background

variable {c : Comparator} {sizing : Sizing} {st st' : Background c}

/-- No thread is on its way to `log_and_apply`. -/
structure AtRest (st : Background c) : Prop where
  worker : st.worker = .waiting ∨ ∃ result, st.worker = .ended result
  callers : ∀ i work, st.callers i ≠ .working work

/-- A writer group whose sync has failed and is not recorded yet. -/
def UnrecordedSync (st : Background c) : Prop := ∃ g ∈ st.group, g.syncError = true

/-- The step does not fall into a gap. -/
def Careful (st : Background c) : Action → Prop
  | .workerStart => ¬ st.UnrecordedSync
  | .workerInstall (some _) => st.group = none
  | .callerPick _ _ _ _ => st.bgError = none ∧ ¬ st.UnrecordedSync
  | .callerInstall caller (some _) => ∀ work, st.callers caller ≠ .working work
  | .lead _ => ∀ e, st.worker ≠ .ended (.error e)
  | .sync (some _) => st.AtRest
  | _ => True

/-- The steps of a thread that is on its way to `log_and_apply`. -/
def Action.isWork : Action → Bool
  | .workerLook | .workerCollect _ | .workerBuild | .workerPick _ _ | .workerOutput _ _ |
    .workerFail _ | .workerInstall _ | .callerOutput _ _ _ | .callerFail _ _ |
    .callerInstall _ _ => true
  | _ => false

theorem AtRest.step_eq (h : st.AtRest) {action : Action} (hwork : action.isWork = true) :
    st.step sizing action = st := by
  have hcalls := h.callers
  rcases h.worker with hw | ⟨result, hw⟩ <;> cases action with
  | workerLook | workerCollect | workerBuild | workerPick | workerOutput | workerFail |
    workerInstall =>
    simp only [step, workerLook, workerCollect, workerBuild, workerPick, workerOutput, workerFail,
      workerInstall, hw]
  | callerOutput caller | callerFail caller | callerInstall caller =>
    cases hcall : st.callers caller <;>
      simp_all only [step, callerOutput, callerFail, callerInstall, ne_eq]
  | _ => cases hwork

/-- Behind a failure: it is recorded or about to be, nobody is on the way to `log_and_apply`, and
the writer group that is left will not be acknowledged. -/
structure Stopped (st : Background c) : Prop where
  recorded : st.bgError.isSome ∨ (∃ e, st.worker = .ended (.error e)) ∨ st.UnrecordedSync
  rest : st.AtRest
  failing : ∀ g ∈ st.group, g.status ≠ .ok ()

/-- Errors have been sticky so far, and behind a failure the database is stopped. -/
structure StickyInv (st : Background c) : Prop where
  sticky : Event.Sticky st.events
  stopped : ∀ e ∈ st.events, e.isFailure = true → st.Stopped

namespace Stopped

section

variable (h : st.Stopped)
include h

theorem of_eq (herr : st'.bgError = st.bgError) (hw : st'.worker = st.worker)
    (hcalls : st'.callers = st.callers) (hgrp : st'.group = st.group) : st'.Stopped := by
  refine ⟨?_, ⟨?_, ?_⟩, ?_⟩
  · rw [UnrecordedSync, herr, hw, hgrp]
    exact h.recorded
  · rw [hw]
    exact h.rest.worker
  · rw [hcalls]
    exact h.rest.callers
  · rw [hgrp]
    exact h.failing

private theorem workerStart (hcare : st.Careful .workerStart) :
    st.workerStart.Stopped ∧ st.workerStart.events = st.events := by
  rw [Background.workerStart]
  split
  · rename_i hw
    split_ifs with hwait herr
    · exact ⟨h, rfl⟩
    · exact ⟨h.of_eq rfl rfl rfl rfl, rfl⟩
    · rcases h.recorded with hrec | ⟨e, he⟩ | hsync
      · exact absurd hrec herr
      · rw [hw] at he
        cases he
      · exact absurd hsync hcare
  · exact ⟨h, rfl⟩

private theorem workerEnd : st.workerEnd.Stopped ∧ st.workerEnd.events = st.events := by
  rw [Background.workerEnd]
  split
  · rename_i hw
    refine ⟨⟨?_, ⟨.inl rfl, h.rest.callers⟩, h.failing⟩, rfl⟩
    rcases h.recorded with hrec | ⟨e, he⟩ | hsync
    · exact .inl hrec
    · rw [hw] at he
      cases he
    · exact .inr (.inr hsync)
  · exact ⟨⟨.inl rfl, ⟨.inl rfl, h.rest.callers⟩, h.failing⟩, rfl⟩
  · exact ⟨h, rfl⟩

private theorem callerPick (hinv : st.WorkInv) {caller level : ℕ} {first last : Option Bytes}
    (hcare : st.Careful (.callerPick caller level first last)) :
    st.callerPick caller level first last = st := by
  rw [Background.callerPick]
  split
  · split_ifs with hwait
    · rfl
    · -- what is left of a failure is the worker, which is still running
      obtain ⟨e, he⟩ : ∃ e, st.worker = .ended (.error e) := by
        rcases h.recorded with hrec | hended | hsync
        · rw [hcare.1] at hrec
          cases hrec
        · exact hended
        · exact absurd hsync hcare.2
      have hrunning : st.bgWorkRunning = true := hinv.running.mpr (by simp [he])
      simp [hrunning] at hwait
  · rfl

private theorem callerEnd (caller : ℕ) : (st.callerEnd caller).Stopped := by
  rw [Background.callerEnd]
  split
  · refine ⟨h.recorded, ⟨h.rest.worker, fun i work => ?_⟩, h.failing⟩
    simp only [goto, Function.update_apply]
    split_ifs
    · simp
    · exact h.rest.callers i work
  · exact h

private theorem lead {sync : Bool} (hcare : st.Careful (.lead sync)) : st.lead sync = st := by
  rw [Background.lead]
  split_ifs with hlead
  · rcases h.recorded with hrec | ⟨e, he⟩ | ⟨g, hg, -⟩
    · simp [Option.isNone_iff_eq_none.mp hlead.2] at hrec
    · exact absurd he (hcare e)
    · simp [Option.isNone_iff_eq_none.mp hlead.1] at hg
  · rfl

private theorem append (fault : Option Status) :
    (st.append fault).Stopped ∧ (st.append fault).events = st.events := by
  rw [Background.append]
  split
  · rename_i g hgrp
    split_ifs
    · exact ⟨h, rfl⟩
    · -- the group keeps its failed status and its failed sync
      have hrec : st.bgError.isSome ∨ (∃ e, st.worker = .ended (.error e)) ∨
          g.syncError = true := by
        rcases h.recorded with hrec | hended | ⟨g', hg', hsync⟩
        · exact .inl hrec
        · exact .inr (.inl hended)
        · rw [hgrp] at hg'
          obtain rfl := Option.some.inj hg'
          exact .inr (.inr hsync)
      have hstopped : ∀ g' : WriteAt, g'.syncError = g.syncError → g'.status ≠ .ok () →
          ({ st with group := some g' } : Background c).Stopped := fun g' hsync hstat =>
        ⟨hrec.imp_right (Or.imp_right fun herr => ⟨g', rfl, hsync.trans herr⟩),
          ⟨h.rest.worker, h.rest.callers⟩, by simpa using hstat⟩
      split
      · exact ⟨hstopped _ rfl (h.failing g hgrp), rfl⟩
      · exact ⟨hstopped _ rfl (by simp), rfl⟩
  · exact ⟨h, rfl⟩

private theorem sync (fault : Option Status) : st.sync fault = st := by
  rw [Background.sync]
  split
  · rename_i g hgrp
    exact if_neg fun hsync => h.failing g hgrp hsync.2.1
  · rfl

private theorem publish : st.publish.Stopped ∧ st.publish.events = st.events := by
  rw [Background.publish]
  split
  · rename_i g hgrp
    split
    · split
      · rename_i hstat
        exact absurd hstat (h.failing g hgrp)
      · refine ⟨⟨?_, ⟨h.rest.worker, h.rest.callers⟩, by simp⟩, rfl⟩
        dsimp only
        split_ifs with hsync
        · exact .inl rfl
        · rcases h.recorded with hrec | hended | ⟨g', hg', hsync'⟩
          · exact .inl hrec
          · exact .inr (.inl hended)
          · rw [hgrp] at hg'
            obtain rfl := Option.some.inj hg'
            exact absurd hsync' hsync
    · exact ⟨h, rfl⟩
  · exact ⟨h, rfl⟩

/-- **A stopped database stays stopped**: nothing is written to the manifest and nothing is
acknowledged. -/
theorem step (hinv : st.WorkInv) {action : Action} (hcare : st.Careful action) :
    (st.step sizing action).Stopped ∧ (st.step sizing action).events = st.events := by
  have hs : ∀ st' : Background c, st' = st → st'.Stopped ∧ st'.events = st.events :=
    fun st' heq => by rw [heq]; exact ⟨h, rfl⟩
  have hother : ∀ st' : Background c, st'.bgError = st.bgError → st'.worker = st.worker →
      st'.callers = st.callers → st'.group = st.group → st'.events = st.events →
      st'.Stopped ∧ st'.events = st.events := fun st' herr hw hcalls hgrp hevents =>
    ⟨h.of_eq herr hw hcalls hgrp, hevents⟩
  cases action with
  | rotate =>
    rw [Background.step, rotate]
    split_ifs
    · exact hs _ rfl
    · exact hother _ rfl rfl rfl rfl rfl
  | schedule => exact hother _ rfl rfl rfl rfl rfl
  | newIterator =>
    rw [Background.step, newIterator]
    split_ifs
    · exact hs _ rfl
    · exact hother _ rfl rfl rfl rfl rfl
  | dropIterator index =>
    rw [Background.step, dropIterator]
    split_ifs
    · rw [releaseIterator]
      split_ifs <;> exact hother _ rfl rfl rfl rfl rfl
    · exact hs _ rfl
  | workerStart => exact h.workerStart hcare
  | workerLook | workerCollect | workerBuild | workerPick | workerOutput | workerFail |
    workerInstall | callerOutput | callerFail | callerInstall => exact hs _ (h.rest.step_eq rfl)
  | workerEnd => exact h.workerEnd
  | callerPick caller level first last => exact hs _ (h.callerPick hinv hcare)
  | callerEnd caller =>
    refine ⟨h.callerEnd caller, ?_⟩
    rw [Background.step, Background.callerEnd]
    split <;> rfl
  | lead sync => exact hs _ (h.lead hcare)
  | append fault => exact h.append fault
  | sync fault => exact hs _ (h.sync fault)
  | publish => exact h.publish

end

end Stopped

/-! ### Runs -/

private theorem events_installWork (sizing : Sizing) (st : Background c) (work : Work) :
    (st.installWork sizing work).events = st.events ∨
      (st.installWork sizing work).events = st.events ++ [.applied] := by
  rw [installWork]
  split_ifs
  · split
    · exact .inl rfl
    · exact .inr rfl
  · rw [retireTableFileNumbers]
    split_ifs <;> exact .inr rfl

/-- A step adds at most one event, and a careful one that adds a failure stops the database. -/
private theorem events_step (hinv : st.WorkInv) {action : Action} (hcare : st.Careful action) :
    (st.step sizing action).events = st.events ∨
      ∃ e, (st.step sizing action).events = st.events ++ [e] ∧
        (e.isFailure = true → (st.step sizing action).Stopped) := by
  have hfailed : ∀ e : Status, st.worker ≠ .waiting → st.group = none →
      ({ st with worker := .ended (.error e), events := st.events ++ [.applyFailed] } :
        Background c).Stopped := fun e hw hgrp =>
    ⟨.inr (.inl ⟨e, rfl⟩), ⟨.inr ⟨_, rfl⟩, fun i work => by simp [hinv.callers_outside hw i]⟩,
      by simp [hgrp]⟩
  cases action with
  | workerInstall fault =>
    rw [step]
    unfold workerInstall
    split
    · exact .inr ⟨_, rfl, fun h => by cases h⟩
    · rename_i hw
      exact .inr ⟨_, rfl, fun _ => hfailed _ (by simp [hw]) hcare⟩
    · rename_i work _
      rcases events_installWork sizing st work with hevents | hevents
      · exact .inl hevents
      · exact .inr ⟨_, hevents, fun h => by cases h⟩
    · rename_i hw
      exact .inr ⟨_, rfl, fun _ => hfailed _ (by simp [hw]) hcare⟩
    · exact .inl rfl
  | callerInstall caller fault =>
    rw [step]
    unfold callerInstall
    split
    · rename_i work _
      rcases events_installWork sizing st work with hevents | hevents
      · exact .inl hevents
      · exact .inr ⟨_, hevents, fun h => by cases h⟩
    · rename_i work e hcall
      exact absurd hcall (hcare work)
    · exact .inl rfl
  | sync fault =>
    rw [step, Background.sync]
    split
    · split_ifs
      · split
        · exact .inl rfl
        · refine .inr ⟨_, rfl, fun _ => ?_⟩
          exact ⟨.inr (.inr ⟨_, rfl, rfl⟩), ⟨hcare.worker, hcare.callers⟩, by simp⟩
      · exact .inl rfl
    · exact .inl rfl
  | publish =>
    rw [step, publish]
    split
    · split
      · split
        · exact .inr ⟨_, rfl, fun h => by cases h⟩
        · exact .inl rfl
      · exact .inl rfl
    · exact .inl rfl
  | _ =>
    refine .inl ?_
    simp only [step, rotate, newIterator, dropIterator, releaseIterator, workerStart, workerLook,
      workerCollect, workerBuild, workerPick, workerOutput, workerFail, workerEnd, callerPick,
      callerOutput, callerFail, callerEnd, Background.lead, Background.append]
    repeat' split
    all_goals rfl

theorem StickyInv.step (h : st.StickyInv) (hinv : st.WorkInv) {action : Action}
    (hcare : st.Careful action) : (st.step sizing action).StickyInv := by
  by_cases hfailed : ∃ e ∈ st.events, e.isFailure = true
  · obtain ⟨e, he, hf⟩ := hfailed
    obtain ⟨hstopped, hevents⟩ := @Stopped.step c sizing st (h.stopped e he hf) hinv _ hcare
    exact ⟨hevents ▸ h.sticky, fun _ _ _ => hstopped⟩
  · have hnone : ∀ a ∈ st.events, a.isFailure = false := fun a ha =>
      Bool.eq_false_iff.mpr fun hf => hfailed ⟨a, ha, hf⟩
    rcases @events_step c sizing st hinv _ hcare with hevents | ⟨e, hevents, hstops⟩
    · refine ⟨hevents ▸ h.sticky, fun a ha hf => absurd ⟨a, hevents ▸ ha, hf⟩ hfailed⟩
    · refine ⟨hevents ▸ h.sticky.append_of_forall e hnone, fun a ha hf => ?_⟩
      rcases List.mem_append.mp (hevents ▸ ha) with ha | ha
      · exact absurd ⟨a, ha, hf⟩ hfailed
      · exact hstops (List.mem_singleton.mp ha ▸ hf)

/-- **Errors are sticky in careful runs.** -/
theorem sticky_run (c : Comparator) (sizing : Sizing) (current : Version) (nextFileNumber : ℕ)
    (tableFiles : Finset ℕ) (actions : List Action)
    (hcare :
      Runs.Along (step sizing) Careful (opened c current nextFileNumber tableFiles) actions) :
    Event.Sticky
      (Runs.run (step sizing) (opened c current nextFileNumber tableFiles) actions).events := by
  set st := Runs.run (step sizing) (opened c current nextFileNumber tableFiles) actions
  have hrun : st.WorkInv ∧ st.StickyInv :=
    Runs.invariant (I := fun st : Background c => st.WorkInv ∧ st.StickyInv)
      (fun _ action h hcare => ⟨h.1.step action, h.2.step h.1 hcare⟩)
      ⟨.opened current nextFileNumber tableFiles, ⟨.nil, nofun⟩⟩ hcare
  exact hrun.2.sticky

/-- A write is acknowledged, the sync of the next one fails, and a third writer comes. -/
def failedSync : List Action :=
  [.lead false, .append none, .publish, .lead true, .append none,
    .sync (some (.ioError "sync failed")), .publish, .lead false, .append none, .publish]

theorem sticky_failedSync :
    Event.Sticky (Runs.run (step ⟨List.length, List.length⟩) (opened bytewiseComparator {} 2 ∅)
      failedSync).events ∧
      (Runs.run (step ⟨List.length, List.length⟩) (opened bytewiseComparator {} 2 ∅)
        failedSync).events = [.acked, .syncFailed] := by
  refine ⟨sticky_run _ _ _ _ _ _ ?_, by decide +kernel⟩
  -- the worker waits all the time, and there is no caller
  have hwaiting : ∀ e, WorkerAt.waiting ≠ .ended (.error e) := nofun
  have houtside : ∀ work, CallerAt.outside ≠ .working work := nofun
  exact ⟨hwaiting, trivial, trivial, hwaiting, trivial, ⟨.inl rfl, fun _ => houtside⟩, trivial,
    hwaiting, trivial, trivial, trivial⟩

/-- A manual compaction cannot write its edit. Then a write comes, and another manual compaction. -/
def failedManualCompaction : List Action :=
  [.callerPick 0 1 none none, .callerInstall 0 (some (.ioError "append failed")), .callerEnd 0,
    .lead false, .append none, .publish,
    .callerPick 0 1 none none, .callerInstall 0 none, .callerEnd 0]

theorem not_sticky_failedManualCompaction :
    ¬ Event.Sticky (Runs.run (step ⟨List.length, List.length⟩)
      (opened bytewiseComparator (swappedVersion [1] [2]) 4 {1, 2, 3})
      failedManualCompaction).events ∧
    (Runs.run (step ⟨List.length, List.length⟩)
      (opened bytewiseComparator (swappedVersion [1] [2]) 4 {1, 2, 3})
      failedManualCompaction).events = [.applyFailed, .acked, .applied] := by
  decide +kernel

end Background
end PulsearcDb
