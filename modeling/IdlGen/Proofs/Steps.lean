import IdlGen.Journal
import IdlGen.Lisp.Backend
import IdlGen.Proofs.Jobs

/-!
# Steps that leave the streams to the sink

A backend cannot reach into the streams of a run. It tells the sink to write forms and to flush, and may
do with the outcome what it likes. Whatever state a run carries with it, each step is then a list of jobs
to the sink, and so is the run. The backends here leave flushing to their last step.
-/

namespace IdlGen

open Job

/-- States that give back the streams that have been put into them. -/
class LawfulCarrier (σ : Type) [Carrier σ] : Prop where
  sink_ofSink (s : Sink) : Carrier.sink (Carrier.ofSink s : σ) = s
  sink_withSink (state : σ) (s : Sink) : Carrier.sink (Carrier.withSink state s) = s

instance : LawfulCarrier Sink := ⟨fun _ => rfl, fun _ _ => rfl⟩

instance : LawfulCarrier Journal := ⟨fun _ => rfl, fun _ _ => rfl⟩

variable {σ α β : Type} [Carrier σ]

/-- To the streams, a step from any state is a list of jobs. -/
def Step.ByJobs (step : Step σ α) : Prop :=
  ∀ state, ∃ jobs, Carrier.sink (finalState (step state)) = performEach jobs (Carrier.sink state)

/-- To the streams, a step from any state is a list of such jobs. -/
def Step.Does (allowed : Job → Prop) (step : Step σ α) : Prop :=
  ∀ state, ∃ jobs, (∀ job ∈ jobs, allowed job) ∧
    Carrier.sink (finalState (step state)) = performEach jobs (Carrier.sink state)

/-- No step of the backend touches the streams but through the sink. -/
structure Backend.ByJobs (b : Backend σ) : Prop where
  start (p : Program) : (b.start p).ByJobs
  typedef (p : Program) (d : Typedef) : (b.typedef p d).ByJobs
  enum (p : Program) (d : EnumDef) : (b.enum p d).ByJobs
  record (p : Program) (kind : RecordKind) (d : Record) : (b.record p kind d).ByJobs
  service (p : Program) (d : Service) : (b.service p d).ByJobs
  constant (p : Program) (d : Constant) : (b.constant p d).ByJobs
  finish (p : Program) : (b.finish p).ByJobs

/-- The backend only writes until it finishes, and finishes by flushing. -/
structure Backend.FlushesAtEnd (b : Backend σ) : Prop where
  start (p : Program) : (b.start p).Does Writes
  typedef (p : Program) (d : Typedef) : (b.typedef p d).Does Writes
  enum (p : Program) (d : EnumDef) : (b.enum p d).Does Writes
  record (p : Program) (kind : RecordKind) (d : Record) : (b.record p kind d).Does Writes
  service (p : Program) (d : Service) : (b.service p d).Does Writes
  constant (p : Program) (d : Constant) : (b.constant p d).Does Writes
  finish (p : Program) : b.finish p = Step.onSink Sink.flush

namespace Step

theorem byJobs_iff_does {step : Step σ α} : step.ByJobs ↔ step.Does fun _ => True := by
  constructor
  · intro h state
    obtain ⟨jobs, hjobs⟩ := h state
    exact ⟨jobs, fun _ _ => trivial, hjobs⟩
  · intro h state
    obtain ⟨jobs, -, hjobs⟩ := h state
    exact ⟨jobs, hjobs⟩

namespace Does

variable {allowed more : Job → Prop}

theorem mono {step : Step σ α} (h : step.Does allowed) (hmore : ∀ job, allowed job → more job) :
    step.Does more := by
  intro state
  obtain ⟨jobs, hallowed, hjobs⟩ := h state
  exact ⟨jobs, fun job hjob => hmore job (hallowed job hjob), hjobs⟩

/-- A step that leaves the streams alone. -/
theorem of_sink_eq {step : Step σ α}
    (h : ∀ state, Carrier.sink (finalState (step state)) = Carrier.sink state) : step.Does allowed :=
  fun state => ⟨[], fun _ hjob => absurd hjob List.not_mem_nil, h state⟩

theorem nothing (a : α) : (pure a : Step σ α).Does allowed := of_sink_eq fun _ => rfl

theorem fail (e : EmitError) : (throw e : Step σ α).Does allowed := of_sink_eq fun _ => rfl

theorem bind {first : Step σ α} {next : α → Step σ β} (hfirst : first.Does allowed)
    (hnext : ∀ a, (next a).Does allowed) : Step.Does allowed (first >>= next) := by
  intro state
  obtain ⟨jobs, hallowed, hjobs⟩ := hfirst state
  cases hrun : first state with
  | error e state' =>
    rw [hrun] at hjobs
    rw [bind_of_error hrun]
    exact ⟨jobs, hallowed, hjobs⟩
  | ok a state' =>
    rw [hrun] at hjobs
    obtain ⟨more, hallowed', hmore⟩ := hnext a state'
    refine ⟨jobs ++ more, List.forall_mem_append.2 ⟨hallowed, hallowed'⟩, ?_⟩
    rw [bind_of_ok hrun, hmore, performEach, performEach, List.foldl_append]
    exact congrArg (performEach more) hjobs

variable [LawfulCarrier σ]

theorem onSink (job : Job) (hjob : allowed job) : (Step.onSink job.perform : Step σ Unit).Does allowed := by
  intro state
  refine ⟨[job], List.forall_mem_singleton.2 hjob, ?_⟩
  rw [Step.onSink, performEach, List.foldl_cons, List.foldl_nil]
  cases job.perform (Carrier.sink state) <;> exact LawfulCarrier.sink_withSink _ _

theorem write (stream : Stream) (form : Layout) :
    (Step.write stream form : Step σ Unit).Does Writes :=
  onSink (.write stream form) trivial

theorem write? (stream : Stream) (form : Except EmitError Layout) :
    (Step.write? stream form : Step σ Unit).Does Writes := by
  cases form with
  | ok form => exact write stream form
  | error e => exact fail e

end Does

theorem ByJobs.bind {first : Step σ α} {next : α → Step σ β} (hfirst : first.ByJobs)
    (hnext : ∀ a, (next a).ByJobs) : Step.ByJobs (first >>= next) :=
  byJobs_iff_does.2 ((byJobs_iff_does.1 hfirst).bind fun a => byJobs_iff_does.1 (hnext a))

end Step

open Step

namespace Backend

variable {b : Backend σ}

theorem FlushesAtEnd.byJobs [LawfulCarrier σ] (hb : b.FlushesAtEnd) : b.ByJobs := by
  have hwrites : ∀ {step : Step σ Unit}, step.Does Writes → step.ByJobs :=
    fun h => byJobs_iff_does.2 (h.mono fun _ _ => trivial)
  refine ⟨fun p => hwrites (hb.start p), fun p d => hwrites (hb.typedef p d),
    fun p d => hwrites (hb.enum p d), fun p kind d => hwrites (hb.record p kind d),
    fun p d => hwrites (hb.service p d), fun p d => hwrites (hb.constant p d), fun p => ?_⟩
  rw [hb.finish]
  exact byJobs_iff_does.2 (Does.onSink .flush trivial)

namespace ByJobs

theorem declaration (hb : b.ByJobs) (p : Program) (d : Definition) : (b.declaration p d).ByJobs := by
  cases d with
  | typedef d => exact hb.typedef p d
  | enum d => exact hb.enum p d
  | record kind d => exact hb.record p kind d
  | service d => exact hb.service p d
  | constant d => exact hb.constant p d

theorem declarations (hb : b.ByJobs) (p : Program) (ds : List Definition) :
    (b.declarations p ds).ByJobs := by
  induction ds with
  | nil => exact byJobs_iff_does.2 (.nothing ())
  | cons d ds ih => exact (hb.declaration p d).bind fun _ => ih

theorem generate (hb : b.ByJobs) (p : Program) : (b.generate p).ByJobs :=
  (hb.start p).bind fun _ => (hb.declarations p _).bind fun _ => hb.finish p

end ByJobs

end Backend

theorem Lisp.flushesAtEnd [LawfulCarrier σ] : (Lisp.backend : Backend σ).FlushesAtEnd where
  start _ :=
    (Does.write _ _).bind fun _ => (Does.write _ _).bind fun _ => (Does.write _ _).bind fun _ =>
      (Does.write _ _).bind fun _ => .write _ _
  typedef _ _ := .nothing ()
  enum _ _ := .write _ _
  record _ _ _ := .write? _ _
  service _ _ := .write? _ _
  constant _ _ := .write? _ _
  finish _ := rfl

theorem Lisp.byJobs [LawfulCarrier σ] : (Lisp.backend : Backend σ).ByJobs := flushesAtEnd.byJobs

theorem Journal.flushesAtEnd (language extension : String) (failAt : Option String) :
    (Journal.backend language extension failAt).FlushesAtEnd := by
  have hstep : ∀ stream keyword name, (Journal.step failAt stream keyword name).Does Writes := by
    intro stream keyword name
    refine (Does.write _ _).bind fun _ => (Does.of_sink_eq fun _ => rfl).bind fun _ => ?_
    split
    · exact .fail _
    · exact .nothing ()
  exact ⟨fun _ => hstep _ _ _, fun _ _ => hstep _ _ _, fun _ _ => hstep _ _ _, fun _ _ _ => hstep _ _ _,
    fun _ _ => hstep _ _ _, fun _ _ => hstep _ _ _, fun _ => rfl⟩

theorem Journal.byJobs (language extension : String) (failAt : Option String) :
    (Journal.backend language extension failAt).ByJobs :=
  (flushesAtEnd language extension failAt).byJobs

end IdlGen
