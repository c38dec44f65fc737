import IdlGen.Proofs.Truncation

/-!
# Jobs for a sink

A sink is told to write forms and to flush. A step of a run that does nothing else is a list of such jobs,
performed up to the first that fails, and then perhaps an error that has nothing to do with the streams. So
the same step on streams with limited room stops at the first form that does not fit, or ends as it does
without limits.
-/

namespace IdlGen

/-! ### Jobs -/

/-- What a sink can be told to do. -/
inductive Job where
  | write (stream : Stream) (form : Layout)
  | flush

namespace Job

def perform : Job → EStateM WriteError Sink Unit
  | write stream form => Sink.writeForm stream form
  | flush => Sink.flush

/-- The bytes that a job brings to each stream. -/
def bytes : Job → Stream → List UInt8
  | write stream form => Sink.only stream form.bytes
  | flush => fun _ => []

/-- The bytes that jobs bring to each stream, one after another. -/
def allBytes (jobs : List Job) (stream : Stream) : List UInt8 :=
  jobs.flatMap fun job => job.bytes stream

/-- Not a flush. -/
def Writes : Job → Prop
  | write _ _ => True
  | flush => False

/-- Performs one job after another, also those behind one that fails. -/
def performEach (jobs : List Job) (s : Sink) : Sink :=
  jobs.foldl (fun s job => finalState (job.perform s)) s

/-- Performs one job after another, up to the first that fails. -/
def performAll : List Job → EStateM WriteError Sink Unit
  | [] => pure ()
  | job :: more => do
    job.perform
    performAll more

@[simp] theorem allBytes_nil (stream : Stream) : allBytes [] stream = [] := rfl

@[simp] theorem allBytes_cons (job : Job) (jobs : List Job) (stream : Stream) :
    allBytes (job :: jobs) stream = job.bytes stream ++ allBytes jobs stream := rfl

theorem allBytes_append (before after : List Job) (stream : Stream) :
    allBytes (before ++ after) stream = allBytes before stream ++ allBytes after stream :=
  List.flatMap_append

end Job

open Job

namespace Sink

variable {limit : Stream → Nat} {asked : Stream → List UInt8} {s : Sink}

/-- Only a form that is written to a stream changes what the stream holds. -/
theorem keeps_perform {job : Job} {stream : Stream} (h : ∀ form, job ≠ .write stream form) :
    Keeps stream job.perform := by
  cases job with
  | write target form =>
    have hstream : stream ≠ target := by
      rintro rfl
      exact h form rfl
    exact (keeps_ask_other hstream _).andThen (keeps_ask_other hstream _)
  | flush => exact (keeps_ask_flush _ _).andThen (keeps_ask_flush _ _)

theorem Truncated.perform (h : s.Truncated limit asked) (job : Job) :
    (finalState (job.perform s)).Truncated limit fun stream => asked stream ++ job.bytes stream := by
  cases job with
  | write target form => exact (h.writeForm target form).truncated
  | flush =>
    obtain ⟨s', hs', hflush⟩ := h.flush
    rw [Job.perform, hflush]
    exact hs'.congr fun stream => (List.append_nil _).symm

theorem Truncated.performEach (h : s.Truncated limit asked) (jobs : List Job) :
    (performEach jobs s).Truncated limit fun stream => asked stream ++ allBytes jobs stream := by
  induction jobs generalizing s asked with
  | nil => exact h.congr fun stream => (List.append_nil _).symm
  | cons job jobs ih =>
    refine Truncated.congr (ih (h.perform job)) fun stream => ?_
    rw [allBytes_cons, List.append_assoc]

/-- How jobs end that are performed up to the first that fails: either all that has been asked fits, or
one of the jobs fails on a stream that has been asked for more than fits. -/
inductive Stops (limit : Stream → Nat) (asked : Stream → List UInt8) (jobs : List Job) :
    EStateM.Result WriteError Sink Unit → Prop where
  | done {s : Sink} (hs : s.Truncated limit fun stream => asked stream ++ allBytes jobs stream)
      (hfits : ∀ stream, (asked stream ++ allBytes jobs stream).length ≤ limit stream) :
      Stops limit asked jobs (.ok () s)
  | full {s : Sink} {before after : List Job} {stream : Stream} (hjobs : jobs = before ++ after)
      (hs : s.Truncated limit fun stream => asked stream ++ allBytes before stream)
      (hmore : limit stream < (asked stream ++ allBytes before stream).length)
      (hlatest : s.latest? = some stream) : Stops limit asked jobs (.error .full s)

theorem stops_perform (h : s.Truncated limit asked)
    (hfits : ∀ stream, (asked stream).length ≤ limit stream) (job : Job) :
    Stops limit asked [job] (job.perform s) := by
  cases job with
  | write target form =>
    have hsame : ∀ stream, askedMore asked target form.bytes stream =
        asked stream ++ allBytes [.write target form] stream := by
      intro stream
      rw [allBytes_cons, allBytes_nil, List.append_nil]
      rfl
    have hends := h.writeForm target form
    rw [Job.perform]
    generalize Sink.writeForm target form s = result at hends
    cases hends with
    | ok hs hroom =>
      have hroom := hroom.resolve_left form.bytes_ne_nil
      exact .done (hs.congr hsame) fun stream => hsame stream ▸ askedMore_fits hfits hroom stream
    | full hs hmore hlatest =>
      refine .full (List.append_nil _).symm (hs.congr hsame) ?_ hlatest
      rwa [← hsame, askedMore_self]
  | flush =>
    have hsame : ∀ stream, asked stream = asked stream ++ allBytes [.flush] stream :=
      fun stream => (List.append_nil _).symm
    obtain ⟨s', hs', hflush⟩ := h.flush
    rw [Job.perform, hflush]
    exact .done (hs'.congr hsame) fun stream => hsame stream ▸ hfits stream

/-- Behind a job after which all fits, jobs stop as if they had begun with it. -/
theorem Stops.behind {job : Job} {jobs : List Job} {result : EStateM.Result WriteError Sink Unit}
    (h : Stops limit (fun stream => asked stream ++ allBytes [job] stream) jobs result) :
    Stops limit asked (job :: jobs) result := by
  have hcons : ∀ more stream, asked stream ++ allBytes [job] stream ++ allBytes more stream =
      asked stream ++ allBytes (job :: more) stream := by
    intro more stream
    simp
  cases h with
  | done hs hfits =>
    exact .done (hs.congr (hcons jobs)) fun stream => hcons jobs stream ▸ hfits stream
  | @full s before after stream hjobs hs hmore hlatest =>
    have hsplit : job :: jobs = (job :: before) ++ after := by
      rw [hjobs, List.cons_append]
    refine .full hsplit (hs.congr (hcons before)) ?_ hlatest
    rwa [← hcons]

theorem stops_performAll (h : s.Truncated limit asked)
    (hfits : ∀ stream, (asked stream).length ≤ limit stream) (jobs : List Job) :
    Stops limit asked jobs (performAll jobs s) := by
  induction jobs generalizing s asked with
  | nil =>
    have hsame : ∀ stream, asked stream = asked stream ++ allBytes [] stream :=
      fun stream => (List.append_nil _).symm
    exact .done (h.congr hsame) fun stream => hsame stream ▸ hfits stream
  | cons job jobs ih =>
    have hfirst := stops_perform h hfits job
    rw [performAll]
    cases hrun : job.perform s with
    | error e s' =>
      rw [bind_of_error hrun]
      rw [hrun] at hfirst
      cases hfirst with
      | @full s' before after stream hjobs hs hmore hlatest =>
        have hsplit : job :: jobs = before ++ (after ++ jobs) := by
          rw [← List.append_assoc, ← hjobs, List.singleton_append]
        exact .full hsplit hs hmore hlatest
    | ok a s' =>
      rw [bind_of_ok hrun]
      rw [hrun] at hfirst
      cases hfirst with
      | done hs hroom => exact (ih hs hroom).behind

/-- A form can be written exactly if, behind everything that jobs have asked for, it fits. -/
theorem writeForm_fails_iff (limit : Stream → Nat) (jobs : List Job) (stream : Stream) (form : Layout) :
    (∃ e s, writeForm stream form (performEach jobs (bounded limit)) = .error e s) ↔
      limit stream < (allBytes (jobs ++ [.write stream form]) stream).length := by
  have hjobs := (truncated_bounded limit).performEach jobs
  rw [(hjobs.writeForm stream form).fails_iff form.bytes_ne_nil, allBytes_append, allBytes_cons,
    allBytes_nil, List.append_nil, List.nil_append, Job.bytes, only_self]

/-! ### Streams without limits -/

/-- In memory all jobs succeed, and leave all their bytes. -/
theorem adds_performAll (jobs : List Job) : Adds (performAll jobs) (allBytes jobs) := by
  induction jobs with
  | nil => exact Adds.nothing.congr fun stream => rfl
  | cons job jobs ih =>
    have hjob : Adds job.perform job.bytes := by
      cases job with
      | write stream form => exact adds_writeForm stream form
      | flush => exact adds_flush
    exact (hjob.andThen ih).congr fun stream => (allBytes_cons job jobs stream).symm

end Sink

/-! ### Steps of a run -/

/-- How a step ends, apart from the state. -/
def outcome {ε σ α : Type} : EStateM.Result ε σ α → Except ε α
  | .ok a _ => .ok a
  | .error e _ => .error e

/-- The end of a step whose jobs end like this, and which otherwise ends as given. -/
def ending (last : Except EmitError Unit) :
    EStateM.Result WriteError Sink Unit → EStateM.Result EmitError Sink Unit
  | .error cause s => .error (.write cause) s
  | .ok _ s =>
    match last with
    | .ok _ => .ok () s
    | .error e => .error e s

@[simp] theorem finalState_ending (last : Except EmitError Unit)
    (result : EStateM.Result WriteError Sink Unit) :
    finalState (ending last result) = finalState result := by
  cases result with
  | ok a s => cases last <;> rfl
  | error cause s => rfl

theorem outcome_ending (last : Except EmitError Unit) (s : Sink) :
    outcome (ending last (.ok () s)) = last := by
  cases last <;> rfl

/-- The step performs these jobs up to the first that fails. If none does, it ends as given. -/
def Performs (jobs : List Job) (last : Except EmitError Unit) (step : Step Sink Unit) : Prop :=
  ∀ s, step s = ending last (performAll jobs s)

/-- The step is a list of jobs, and an error of its own, if it has one, does not come from a writer. -/
def Scripted (step : Step Sink Unit) : Prop :=
  ∃ jobs last, Performs jobs last step ∧ ∀ cause, last ≠ .error (.write cause)

theorem performAll_append (before after : List Job) :
    performAll (before ++ after) = performAll before >>= fun _ => performAll after := by
  induction before with
  | nil => rfl
  | cons job before ih => simp only [List.cons_append, performAll, ih, bind_assoc]

theorem performAll_singleton (job : Job) : performAll [job] = job.perform := by
  simp only [performAll]
  exact bind_pure_unit

namespace Scripted

variable {first second : Step Sink Unit}

theorem nothing : Scripted (pure ()) :=
  ⟨[], .ok (), fun _ => rfl, fun _ => nofun⟩

theorem fail {e : EmitError} (he : ∀ cause, e ≠ .write cause) : Scripted (throw e) :=
  ⟨[], .error e, fun _ => rfl, fun cause herror => he cause (Except.error.inj herror)⟩

theorem onSink (job : Job) : Scripted (Step.onSink job.perform) := by
  refine ⟨[job], .ok (), fun s => ?_, fun _ => nofun⟩
  rw [performAll_singleton]
  simp only [Step.onSink, Carrier.sink, Carrier.withSink, id]
  cases job.perform s <;> rfl

theorem andThen (hfirst : Scripted first) (hsecond : Scripted second) :
    Scripted (first >>= fun _ => second) := by
  obtain ⟨jobs, last, hjobs, hlast⟩ := hfirst
  obtain ⟨more, last', hmore, hlast'⟩ := hsecond
  cases last with
  | error e =>
    refine ⟨jobs, .error e, fun s => ?_, hlast⟩
    have hs := hjobs s
    cases hrun : performAll jobs s <;> rw [hrun] at hs <;> exact bind_of_error hs
  | ok a =>
    refine ⟨jobs ++ more, last', fun s => ?_, hlast'⟩
    have hs := hjobs s
    rw [performAll_append]
    cases hrun : performAll jobs s with
    | ok b s' =>
      rw [hrun] at hs
      rw [bind_of_ok hs, bind_of_ok hrun, hmore]
    | error cause s' =>
      rw [hrun] at hs
      rw [bind_of_error hs, bind_of_error hrun]
      rfl

end Scripted

/-- What limited room makes of a step that ends as `free` does without limits. -/
structure CutShort (limit : Stream → Nat) (free cut : EStateM.Result EmitError Sink Unit) : Prop where
  beginnings (stream : Stream) : (finalState cut).contents stream <+: (finalState free).contents stream
  fails_iff : (∃ cause s, cut = .error (.write cause) s) ↔
    ∃ stream, limit stream < ((finalState free).contents stream).length
  /-- The stream that failed is full. -/
  filled {cause : WriteError} {s : Sink} : cut = .error (.write cause) s → cause = .full ∧
    ∃ stream, s.latest? = some stream ∧ limit stream < ((finalState free).contents stream).length ∧
      (s.contents stream).length = limit stream
  same : (∀ cause s, cut ≠ .error (.write cause) s) →
    outcome cut = outcome free ∧ (finalState cut).contents = (finalState free).contents

theorem CutShort.of_same {limit : Stream → Nat} {free cut : EStateM.Result EmitError Sink Unit}
    (houtcome : outcome cut = outcome free)
    (hcontents : (finalState cut).contents = (finalState free).contents)
    (hfits : ∀ stream, ((finalState free).contents stream).length ≤ limit stream)
    (hwrite : ∀ cause s, cut ≠ .error (.write cause) s) : CutShort limit free cut where
  beginnings stream := hcontents ▸ List.prefix_rfl
  fails_iff := by
    constructor
    · rintro ⟨cause, s, hcut⟩
      exact absurd hcut (hwrite cause s)
    · rintro ⟨stream, hmore⟩
      exact absurd (hfits stream) (Nat.not_le.2 hmore)
  filled hcut := absurd hcut (hwrite _ _)
  same _ := ⟨houtcome, hcontents⟩

theorem CutShort.of_full {limit : Stream → Nat} {free : EStateM.Result EmitError Sink Unit} {s : Sink}
    {stream : Stream} (hcontents : ∀ stream, s.contents stream <+: (finalState free).contents stream)
    (hlatest : s.latest? = some stream)
    (hmore : limit stream < ((finalState free).contents stream).length)
    (hfilled : (s.contents stream).length = limit stream) :
    CutShort limit free (.error (.write .full) s) where
  beginnings := hcontents
  fails_iff := ⟨fun _ => ⟨stream, hmore⟩, fun _ => ⟨.full, s, rfl⟩⟩
  filled := by
    rintro cause s' ⟨⟩
    exact ⟨rfl, stream, hlatest, hmore, hfilled⟩
  same hwrite := absurd rfl (hwrite .full s)

/-- On streams with limited room, a step stops at the first form that does not fit, if there is one. -/
theorem Scripted.cutShort {step : Step Sink Unit} (h : Scripted step) (limit : Stream → Nat) :
    CutShort limit (step {}) (step (Sink.bounded limit)) := by
  obtain ⟨jobs, last, hjobs, hlast⟩ := h
  obtain ⟨s, hfree, -, hgain⟩ := Sink.adds_performAll jobs {} Sink.inMemory_empty
  have hcontents : ∀ stream, (finalState (step {})).contents stream = allBytes jobs stream := by
    intro stream
    rw [hjobs, finalState_ending, hfree, finalState, hgain, Sink.contents_empty, List.nil_append]
  have hstops := Sink.stops_performAll (Sink.truncated_bounded limit) (fun _ => Nat.zero_le _) jobs
  rw [hjobs (Sink.bounded limit)]
  generalize performAll jobs (Sink.bounded limit) = result at hstops
  cases hstops with
  | @done s' hs hfits =>
    simp only [List.nil_append] at hs hfits
    refine .of_same ?_ ?_ ?_ ?_
    · rw [outcome_ending, hjobs, hfree, outcome_ending]
    · funext stream
      rw [finalState_ending, finalState, hs.contents_eq, List.take_of_length_le (hfits stream),
        hcontents]
    · intro stream
      rw [hcontents]
      exact hfits stream
    · intro cause s'' hcut
      have houtcome := congrArg outcome hcut
      rw [outcome_ending] at houtcome
      exact hlast cause houtcome
  | @full s' before after stream hsplit hs hmore hlatest =>
    simp only [List.nil_append] at hs hmore
    have hbefore : ∀ stream, allBytes before stream <+: allBytes jobs stream := by
      intro stream
      rw [hsplit, allBytes_append]
      exact List.prefix_append _ _
    refine .of_full (fun stream => ?_) hlatest ?_ ?_
    · have hfirst := List.take_prefix (limit stream) (allBytes before stream)
      rw [hs.contents_eq, hcontents]
      exact hfirst.trans (hbefore stream)
    · rw [hcontents]
      exact Nat.lt_of_lt_of_le hmore (hbefore stream).length_le
    · rw [hs.contents_eq, List.length_take, Nat.min_eq_left (Nat.le_of_lt hmore)]

end IdlGen
