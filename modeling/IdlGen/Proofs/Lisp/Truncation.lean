import IdlGen.Proofs.Jobs
import IdlGen.Proofs.Lisp.Acceptance

/-!
# Runs on streams with limited room

A run writes forms, flushes, and may stop at a declaration that has no form. So on streams with limited
room it is the run without limits, up to the first form that does not fit.
-/

namespace IdlGen

theorem FirstViolation.ne_write {t : Ty} {v : Literal} {e : EmitError} (h : FirstViolation t v e)
    (cause : WriteError) : e ≠ .write cause := by
  induction h with
  | void | shape | fieldKey | unknownField => nofun
  | item _ _ ih | member _ _ ih | key _ _ ih | value _ _ _ ih | fieldValue _ _ _ ih | typedef _ ih =>
    exact ih

namespace Lisp

open Sink Job

/-- That a declaration has no form is never the fault of a writer. -/
theorem form_ne_write {info : ProgramInfo} {d : Definition} {e : EmitError}
    (h : form info d = .error e) (cause : WriteError) : e ≠ .write cause := by
  have hvets := vets_form info d
  rw [h] at hvets
  obtain ⟨-, given, -, -, -, hviolation⟩ := hvets.bad_of_error
  exact hviolation.ne_write cause

theorem scripted_write (stream : Stream) (form : Layout) :
    Scripted (Step.write stream form) := .onSink (.write stream form)

theorem scripted_declaration (p : Program) (d : Definition) :
    Scripted ((backend : Backend Sink).declaration p d) := by
  cases hstream : d.stream? with
  | none =>
    rw [declaration_of_none p hstream]
    exact .nothing
  | some stream =>
    rw [declaration_of_stream p hstream]
    cases hform : form p.info d with
    | ok f => exact scripted_write stream f
    | error e => exact .fail (form_ne_write hform)

theorem scripted_declarations (p : Program) (ds : List Definition) :
    Scripted ((backend : Backend Sink).declarations p ds) := by
  induction ds with
  | nil => exact .nothing
  | cons d ds ih => exact (scripted_declaration p d).andThen ih

theorem scripted_generate (p : Program) : Scripted ((backend : Backend Sink).generate p) := by
  have hstart : Scripted ((backend : Backend Sink).start p) :=
    (scripted_write _ _).andThen <| (scripted_write _ _).andThen <| (scripted_write _ _).andThen <|
      (scripted_write _ _).andThen (scripted_write _ _)
  exact hstart.andThen ((scripted_declarations p _).andThen (.onSink .flush))

/-- Limited room only truncates. However a writer portions its bytes, it ends as if they came at once.
After any jobs, failed ones included, a stream holds as much as fits of all the forms so far; writing a
form fails exactly if these do not fit to the end, flushing never does, and neither flushing nor a form
for the other stream changes what a stream holds. A run leaves the beginnings of what it leaves without
limits. It fails for want of room exactly if that does not fit on some stream, and then on a stream that it
has filled; otherwise it ends in the same way and with the same streams. -/
theorem limits_truncate (limit : Stream → Nat) :
    (∀ (n : Nat) (w : Writer) bytes result, w.limit = some n →
      (Writer.InPortions n w bytes result ↔ result = Writer.write bytes w)) ∧
    (∀ jobs stream, (performEach jobs (bounded limit)).contents stream =
      (allBytes jobs stream).take (limit stream)) ∧
    (∀ jobs stream form,
      (∃ e s, writeForm stream form (performEach jobs (bounded limit)) = .error e s) ↔
        limit stream < (allBytes (jobs ++ [.write stream form]) stream).length) ∧
    (∀ jobs, ∃ s, flush (performEach jobs (bounded limit)) = .ok () s) ∧
    (∀ (s : Sink) (job : Job) stream, (∀ form, job ≠ .write stream form) →
      (finalState (job.perform s)).contents stream = s.contents stream) ∧
    ∀ p, CutShort limit (run p) ((backend : Backend Sink).generate p (bounded limit)) := by
  have hjobs : ∀ jobs, (performEach jobs (bounded limit)).Truncated limit
      fun stream => [] ++ allBytes jobs stream :=
    (truncated_bounded limit).performEach
  refine ⟨?_, ?_, writeForm_fails_iff limit, ?_, ?_, ?_⟩
  · intro n w bytes result hlimit
    exact Writer.inPortions_iff hlimit bytes result
  · intro jobs stream
    exact (hjobs jobs).contents_eq stream
  · intro jobs
    obtain ⟨s, -, hflush⟩ := (hjobs jobs).flush
    exact ⟨s, hflush⟩
  · intro s job stream hjob
    exact keeps_perform hjob s
  · intro p
    exact (scripted_generate p).cutShort limit

end Lisp

end IdlGen
