import PulsearcDb.Coding

/-!
# Writable files

The `WritableFile` of `env/env.rs`: a buffer in front of the file, as `StdWritableFile` has it.
`append` fills the buffer, `flush` and `sync` empty it into the file. Any operation can fail after
a prefix of its bytes has been written; the bytes of a failed `append` that were accepted stay in
the buffer, and those that a failed `flush` did not write stay there too. Which operation fails,
and after how many bytes, is a parameter: the `fault` that the file carries.

An operation that can fail returns its result together with the state that it has reached, also
when it fails; `andThen` is the `?` between two of them.
-/

namespace PulsearcDb

open List

/-- The result of an operation and the state it leaves. -/
abbrev Outcome (σ : Type) := Result Unit × σ

namespace Outcome

variable {σ : Type}

/-- `first?; second`. -/
def andThen (o : Outcome σ) (f : σ → Outcome σ) : Outcome σ :=
  match o with
  | (.ok _, s) => f s
  | (.error e, s) => (.error e, s)

@[simp] theorem andThen_ok (s : σ) (f : σ → Outcome σ) : andThen (.ok (), s) f = f s := rfl

@[simp] theorem andThen_error (e : Status) (s : σ) (f : σ → Outcome σ) :
    andThen (.error e, s) f = (.error e, s) := rfl

theorem andThen_eq_ok {o : Outcome σ} {f : σ → Outcome σ} {s : σ} :
    andThen o f = (.ok (), s) ↔ ∃ s', o = (.ok (), s') ∧ f s' = (.ok (), s) := by
  rcases o with ⟨e | u, s'⟩ <;> simp [andThen]

theorem andThen_assoc (o : Outcome σ) (f g : σ → Outcome σ) :
    andThen (andThen o f) g = andThen o fun s => andThen (f s) g := by
  rcases o with ⟨e | u, s'⟩ <;> rfl

end Outcome

/-- A pending failure: `after` operations still succeed, and the next one fails after `written` of
its bytes. -/
structure Fault where
  after : ℕ
  written : ℕ
  deriving DecidableEq, Repr

/-- A file with its buffer and at most one fault to come. -/
structure WritableFile where
  flushed : Bytes := []
  buffer : Bytes := []
  fault : Option Fault := none
  deriving DecidableEq, Repr

namespace WritableFile

/-- All the bytes that the file has accepted. -/
def accepted (f : WritableFile) : Bytes := f.flushed ++ f.buffer

/-- A faulty append keeps a part of the data. -/
def append (f : WritableFile) (data : Bytes) : Outcome WritableFile :=
  match f.fault with
  | none => (.ok (), { f with buffer := f.buffer ++ data })
  | some ⟨0, written⟩ =>
    (.error (Status.ioError "writable append"),
      { f with buffer := f.buffer ++ data.take written, fault := none })
  | some ⟨after + 1, written⟩ =>
    (.ok (), { f with buffer := f.buffer ++ data, fault := some ⟨after, written⟩ })

/-- The common body of `flush` and `sync`. -/
def flushWith (f : WritableFile) (message : String) : Outcome WritableFile :=
  match f.fault with
  | none => (.ok (), { f with flushed := f.accepted, buffer := [] })
  | some ⟨0, written⟩ =>
    (.error (Status.ioError message),
      { flushed := f.flushed ++ f.buffer.take written, buffer := f.buffer.drop written,
        fault := none })
  | some ⟨after + 1, written⟩ =>
    (.ok (), { flushed := f.accepted, buffer := [], fault := some ⟨after, written⟩ })

/-- The buffer goes to the file. -/
def flush (f : WritableFile) : Outcome WritableFile := f.flushWith "writable flush"

/-- A flush with another error message. -/
def sync (f : WritableFile) : Outcome WritableFile := f.flushWith "writable sync"

/-- **What an operation leaves in the file.** It writes all of `bytes` when it succeeds and a prefix
of them when it fails, it never takes back a flushed byte, and it succeeds when no failure is
pending. -/
structure Wrote (bytes : Bytes) (f : WritableFile) (o : Outcome WritableFile) : Prop where
  flushed : f.flushed <+: o.2.flushed
  ok : o.1 = .ok () → o.2.accepted = f.accepted ++ bytes
  error : ∀ e, o.1 = .error e → ∃ written, written <+: bytes ∧
    o.2.accepted = f.accepted ++ written
  noFault : f.fault = none → o.1 = .ok () ∧ o.2.fault = none

theorem wrote_append (f : WritableFile) (data : Bytes) : Wrote data f (f.append data) := by
  rcases f with ⟨flushed, buffer, _ | ⟨_ | after, written⟩⟩
  · refine ⟨prefix_rfl, fun _ => ?_, by simp [append], fun _ => ⟨rfl, rfl⟩⟩
    simp [append, accepted]
  · refine ⟨prefix_rfl, by simp [append], fun _ _ => ⟨data.take written, ?_, ?_⟩, by simp⟩
    · exact take_prefix written data
    · simp [append, accepted]
  · refine ⟨prefix_rfl, fun _ => ?_, by simp [append], by simp⟩
    simp [append, accepted]

theorem wrote_flushWith (f : WritableFile) (message : String) :
    Wrote [] f (f.flushWith message) := by
  rcases f with ⟨flushed, buffer, _ | ⟨_ | after, written⟩⟩
  · refine ⟨prefix_append _ _, fun _ => ?_, by simp [flushWith], fun _ => ⟨rfl, rfl⟩⟩
    simp [flushWith, accepted]
  · refine ⟨prefix_append _ _, by simp [flushWith], fun _ _ => ⟨[], prefix_rfl, ?_⟩,
      by simp⟩
    simp [flushWith, accepted]
  · refine ⟨prefix_append _ _, fun _ => ?_, by simp [flushWith], by simp⟩
    simp [flushWith, accepted]

theorem Wrote.trans {a b : Bytes} {f f' : WritableFile} {o : Outcome WritableFile}
    (h : Wrote a f (.ok (), f')) (h' : Wrote b f' o) : Wrote (a ++ b) f o := by
  have hf' : f'.accepted = f.accepted ++ a := h.ok rfl
  refine ⟨h.flushed.trans h'.flushed, fun ho => ?_, fun e ho => ?_, fun hf => ?_⟩
  · rw [h'.ok ho, hf', append_assoc]
  · obtain ⟨written, hpre, heq⟩ := h'.error e ho
    refine ⟨a ++ written, (prefix_append_right_inj a).mpr hpre, ?_⟩
    rw [heq, hf', append_assoc]
  · exact h'.noFault (h.noFault hf).2

theorem Wrote.of_error {a : Bytes} {f f' : WritableFile} {e : Status} (b : Bytes)
    (h : Wrote a f (.error e, f')) : Wrote (a ++ b) f (.error e, f') := by
  refine ⟨h.flushed, by simp, fun e' _ => ?_, fun hf => ?_⟩
  · obtain ⟨written, hpre, heq⟩ := h.error e rfl
    exact ⟨written, hpre.trans (prefix_append a b), heq⟩
  · simpa using (h.noFault hf).1

end WritableFile
end PulsearcDb
