import IdlGen.Proofs.Steps

/-!
# The calls of a run

A run calls upon its backend to start, then for each declaration in source order by the step of its kind,
and last to finish. Behind a call that fails it makes none. What a backend does in its steps is left open;
to see which are called, it is replaced by a backend that does the same and keeps a list.

Of a backend that only writes until it finishes, and finishes by flushing, follows which streams are
flushed, and when.
-/

namespace IdlGen

/-- A step that a run may call for, with what it is given. -/
inductive Call where
  | start (p : Program)
  | typedef (p : Program) (d : Typedef)
  | enum (p : Program) (d : EnumDef)
  | record (p : Program) (kind : RecordKind) (d : Record)
  | service (p : Program) (d : Service)
  | constant (p : Program) (d : Constant)
  | finish (p : Program)

/-- The step for a declaration is that of its kind. -/
def Definition.call (p : Program) : Definition → Call
  | typedef d => .typedef p d
  | enum d => .enum p d
  | record kind d => .record p kind d
  | service d => .service p d
  | constant d => .constant p d

namespace Program

/-- The calls up to the last one. -/
def opening (p : Program) : List Call := .start p :: p.definitions.map (Definition.call p)

/-- The calls for a whole program. -/
def calls (p : Program) : List Call := p.opening ++ [.finish p]

end Program

/-- A run with the calls that it has made. -/
structure Logged (σ : Type) where
  state : σ
  calls : List Call := []

namespace Logged

variable {σ : Type}

instance [Carrier σ] : Carrier (Logged σ) :=
  ⟨fun s => ⟨Carrier.ofSink s, []⟩, fun l => Carrier.sink l.state,
    fun l s => { l with state := Carrier.withSink l.state s }⟩

/-- The end of a step with the calls made by then. -/
def ending (calls : List Call) :
    EStateM.Result EmitError σ Unit → EStateM.Result EmitError (Logged σ) Unit
  | .ok _ s => .ok () ⟨s, calls⟩
  | .error e s => .error e ⟨s, calls⟩

end Logged

variable {σ : Type} [Carrier σ]

def Call.perform (b : Backend σ) : Call → Step σ Unit
  | start p => b.start p
  | typedef p d => b.typedef p d
  | enum p d => b.enum p d
  | record p kind d => b.record p kind d
  | service p d => b.service p d
  | constant p d => b.constant p d
  | finish p => b.finish p

/-- Performs a call and lists it, whether or not it fails. -/
def Call.log (b : Backend σ) (call : Call) : Step (Logged σ) Unit := fun l =>
  Logged.ending (l.calls ++ [call]) (call.perform b l.state)

namespace Backend

/-- The backend that does the same and lists the calls that are made of it. -/
def logging (b : Backend σ) : Backend (Logged σ) where
  language := b.language
  extension := b.extension
  directory := b.directory
  start p := (Call.start p).log b
  typedef p d := (Call.typedef p d).log b
  enum p d := (Call.enum p d).log b
  record p kind d := (Call.record p kind d).log b
  service p d := (Call.service p d).log b
  constant p d := (Call.constant p d).log b
  finish p := (Call.finish p).log b

/-- The calls succeed one after another, and lead from the first state to the second. -/
inductive Completes (b : Backend σ) : List Call → σ → σ → Prop where
  | nil (s : σ) : Completes b [] s s
  | cons {call : Call} {calls : List Call} {s t u : σ} (hcall : call.perform b s = .ok () t)
      (hrest : Completes b calls t u) : Completes b (call :: calls) s u

/-- Of the calls that are planned these are made, and the last of them ends like this: all if they succeed,
and otherwise those up to the first that fails, with its error. -/
inductive Makes (b : Backend σ) (planned : List Call) (s : σ) :
    List Call → EStateM.Result EmitError σ Unit → Prop where
  | all {t : σ} (h : b.Completes planned s t) : Makes b planned s planned (.ok () t)
  | failed {before after : List Call} {call : Call} {e : EmitError} {t u : σ}
      (hplanned : planned = before ++ call :: after) (hbefore : b.Completes before s t)
      (hcall : call.perform b t = .error e u) :
      Makes b planned s (before ++ [call]) (.error e u)

/-! ### Making calls -/

/-- Makes one call after another, up to the first that fails. -/
def performCalls (b : Backend σ) : List Call → Step σ Unit
  | [] => pure ()
  | call :: more => do
    call.perform b
    b.performCalls more

variable {b : Backend σ} {s t : σ}

theorem performCalls_append (b : Backend σ) (calls more : List Call) :
    b.performCalls (calls ++ more) = b.performCalls calls >>= fun _ => b.performCalls more := by
  induction calls with
  | nil => rfl
  | cons call calls ih => simp only [List.cons_append, performCalls, ih, bind_assoc]

theorem generate_eq_performCalls (b : Backend σ) (p : Program) :
    b.generate p = b.performCalls p.calls := by
  have hdeclarations : ∀ ds, b.declarations p ds = b.performCalls (ds.map (Definition.call p)) := by
    intro ds
    induction ds with
    | nil => rfl
    | cons d ds ih =>
      rw [declarations, ih]
      cases d <;> rfl
  rw [generate, hdeclarations, Program.calls, performCalls_append]
  simp only [Program.opening, performCalls, bind_assoc, bind_pure_unit]
  rfl

theorem completes_iff {calls : List Call} :
    b.Completes calls s t ↔ b.performCalls calls s = .ok () t := by
  constructor
  · intro h
    induction h with
    | nil s => rfl
    | cons hcall hrest ih =>
      rw [performCalls, bind_of_ok hcall, ih]
  · intro h
    induction calls generalizing s with
    | nil =>
      cases h
      exact .nil _
    | cons call calls ih =>
      obtain ⟨_, u, hcall, hrest⟩ := ok_of_bind h
      exact .cons hcall (ih hrest)

/-- The step that lists a call is the step of the backend that lists calls. -/
theorem perform_logging (b : Backend σ) (call : Call) : call.perform b.logging = call.log b := by
  cases call <;> rfl

/-- Seen through the list, calls are made one after another, and none behind one that fails. -/
theorem makes_performCalls (b : Backend σ) (calls log : List Call) (s : σ) :
    ∃ made, b.logging.performCalls calls ⟨s, log⟩ = Logged.ending (log ++ made) (b.performCalls calls s) ∧
      b.Makes calls s made (b.performCalls calls s) := by
  induction calls generalizing s log with
  | nil => exact ⟨[], by rw [List.append_nil]; rfl, .all (.nil s)⟩
  | cons call calls ih =>
    have hlog : call.perform b.logging ⟨s, log⟩ =
        Logged.ending (log ++ [call]) (call.perform b s) := by
      rw [perform_logging]
      rfl
    rw [performCalls, performCalls]
    cases hcall : call.perform b s with
    | error e t =>
      rw [hcall] at hlog
      rw [bind_of_error hcall, bind_of_error hlog]
      exact ⟨[] ++ [call], rfl, .failed rfl (.nil s) hcall⟩
    | ok _ t =>
      rw [hcall] at hlog
      rw [bind_of_ok hcall, bind_of_ok hlog]
      obtain ⟨made, hrun, hmakes⟩ := ih (log ++ [call]) t
      refine ⟨call :: made, ?_, ?_⟩
      · rw [hrun, List.append_assoc, List.singleton_append]
      · generalize b.performCalls calls t = result at hmakes
        cases hmakes with
        | all h => exact .all (.cons hcall h)
        | failed hplanned hbefore hfails =>
          exact .failed (by rw [hplanned, List.cons_append]) (.cons hcall hbefore) hfails

theorem completes_append {calls more : List Call} :
    b.Completes (calls ++ more) s t ↔ ∃ u, b.Completes calls s u ∧ b.Completes more u t := by
  simp only [completes_iff, performCalls_append]
  constructor
  · intro h
    obtain ⟨_, u, hcalls, hmore⟩ := ok_of_bind h
    exact ⟨u, hcalls, hmore⟩
  · rintro ⟨u, hcalls, hmore⟩
    rw [bind_of_ok hcalls, hmore]

theorem finish_not_mem_opening (p : Program) : .finish p ∉ p.opening := by
  have hcall : ∀ d : Definition, d.call p ≠ .finish p := by
    intro d
    cases d <;> exact nofun
  simp [Program.opening, hcall]

/-- The last call is made exactly if all the others succeed. -/
theorem Makes.finish_mem_iff {p : Program} {made : List Call} {result : EStateM.Result EmitError σ Unit}
    (h : b.Makes p.calls s made result) : .finish p ∈ made ↔ ∃ t, b.Completes p.opening s t := by
  cases h with
  | all h =>
    obtain ⟨t, hopening, -⟩ := completes_append.1 h
    exact iff_of_true (List.mem_append_right _ List.mem_cons_self) ⟨t, hopening⟩
  | @failed before after call e t u hplanned hbefore hcall =>
    rcases List.eq_nil_or_concat after with rfl | ⟨rest, last, rfl⟩
    · obtain ⟨rfl, hlast⟩ := List.append_inj' hplanned rfl
      obtain rfl := List.singleton_inj.1 hlast
      exact iff_of_true (List.mem_append_right _ List.mem_cons_self) ⟨t, hbefore⟩
    · -- The call that failed is one of those before the last.
      rw [List.concat_eq_append, ← List.cons_append, ← List.append_assoc] at hplanned
      obtain ⟨hopening, -⟩ := List.append_inj' hplanned rfl
      refine iff_of_false (fun hmem => finish_not_mem_opening p ?_) ?_
      · rw [hopening, ← List.singleton_append, ← List.append_assoc]
        exact List.mem_append_left _ hmem
      · rintro ⟨v, hcompletes⟩
        rw [hopening, completes_append] at hcompletes
        obtain ⟨t', hbefore', hrest⟩ := hcompletes
        obtain rfl : t = t' := by
          have hsame := (completes_iff.1 hbefore).symm.trans (completes_iff.1 hbefore')
          cases hsame
          rfl
        cases hrest with
        | cons hcall' => cases hcall.symm.trans hcall'

end Backend

/-! ### Flushing -/

namespace Sink

/-- The streams that have been asked to flush, in that order. -/
def flushed (s : Sink) : List Stream := (s.requests.filter fun r => r.2 = .flush).reverse.map (·.1)

/-- From one state to the other, streams have been asked to flush, and some of them did. -/
structure Flushes (asked done : List Stream) (s s' : Sink) : Prop where
  asked : s'.flushed = s.flushed ++ asked
  done (stream : Stream) : (s'.writer stream).flushes = (s.writer stream).flushes + done.count stream
  refuses (stream : Stream) : (s'.writer stream).refusesFlush = (s.writer stream).refusesFlush

variable {s s' s'' : Sink}

theorem Flushes.refl (s : Sink) : Flushes [] [] s s :=
  ⟨(List.append_nil _).symm, fun _ => rfl, fun _ => rfl⟩

theorem Flushes.trans {asked done asked' done' : List Stream} (h : Flushes asked done s s')
    (h' : Flushes asked' done' s' s'') : Flushes (asked ++ asked') (done ++ done') s s'' where
  asked := by rw [h'.asked, h.asked, List.append_assoc]
  done stream := by rw [h'.done, h.done, List.count_append, Nat.add_assoc]
  refuses stream := by rw [h'.refuses, h.refuses]

theorem flushed_noted (s : Sink) (stream : Stream) (request : Request) :
    (s.noted stream request).flushed = s.flushed ++ if request = .flush then [stream] else [] := by
  by_cases h : request = .flush
  · subst h
    simp [flushed, noted]
  · simp [flushed, noted, h]

/-- Only a request to flush is noted as one, and what it does to the count of its writer counts. -/
theorem flushes_ask {stream : Stream} {request : Request} {asked done : List Stream} {w : Writer}
    (s : Sink) (hasked : (if request = .flush then [stream] else []) = asked)
    (hcount : w.flushes = (s.writer stream).flushes + done.count stream)
    (hrefuses : w.refusesFlush = (s.writer stream).refusesFlush)
    (hothers : ∀ other, other ≠ stream → done.count other = 0) :
    Flushes asked done s ((s.noted stream request).withWriter stream w) where
  asked := by
    have hrequests : ((s.noted stream request).withWriter stream w).requests =
        (s.noted stream request).requests := by cases stream <;> rfl
    rw [← hasked, ← flushed_noted, flushed, hrequests, flushed]
  done other := by
    rw [writer_withWriter]
    split
    · subst other
      exact hcount
    · rename_i hother
      rw [writer_noted, hothers other hother, Nat.add_zero]
  refuses other := by
    rw [writer_withWriter]
    split
    · subst other
      exact hrefuses
    · rw [writer_noted]

/-- Writing has nothing to do with flushing. -/
theorem finalState_write (bytes : List UInt8) (w : Writer) :
    (finalState (Writer.write bytes w)).flushes = w.flushes ∧
      (finalState (Writer.write bytes w)).refusesFlush = w.refusesFlush := by
  cases hlimit : w.limit with
  | none =>
    rw [Writer.write, hlimit]
    exact ⟨rfl, rfl⟩
  | some limit =>
    rw [Writer.write_limited hlimit]
    split <;> exact ⟨rfl, rfl⟩

theorem flushes_ask_write (stream : Stream) (bytes : List UInt8) (s : Sink) :
    Flushes [] [] s (finalState (ask stream (.write bytes) s)) := by
  have hrequest : Request.write bytes ≠ .flush := by
    intro h
    cases h
  obtain ⟨hcount, hrefuses⟩ := finalState_write bytes (s.writer stream)
  have hask : finalState (ask stream (.write bytes) s) = (s.noted stream (.write bytes)).withWriter
      stream (finalState (Writer.write bytes (s.writer stream))) := by
    rw [ask_eq, Writer.perform]
    cases Writer.write bytes (s.writer stream) <;> rfl
  rw [hask]
  exact flushes_ask s (if_neg hrequest) hcount hrefuses fun _ _ => rfl

theorem flushes_ask_flush (stream : Stream) (h : (s.writer stream).refusesFlush = false) :
    ∃ s', ask stream .flush s = .ok () s' ∧ Flushes [stream] [stream] s s' := by
  rw [ask_eq, Writer.perform, Writer.flush, h]
  refine ⟨_, rfl, flushes_ask s (if_pos rfl) ?_ h.symm fun other hother => ?_⟩
  · rw [List.count_singleton_self]
  · rw [List.count_eq_zero, List.mem_singleton]
    exact hother

theorem flushes_ask_refused (stream : Stream) (h : (s.writer stream).refusesFlush = true) :
    ∃ s', ask stream .flush s = .error .flushRefused s' ∧ Flushes [stream] [] s s' := by
  rw [ask_eq, Writer.perform, Writer.flush, h]
  exact ⟨_, rfl, flushes_ask s (if_pos rfl) rfl rfl fun _ _ => rfl⟩

/-- How flushing both streams goes: the second one is left alone if the first one refuses. -/
inductive FlushesBoth {ε : Type} (refused : ε) (s s' : Sink) : Except ε Unit → Prop where
  | both (htypes : s.types.refusesFlush = false) (hvars : s.vars.refusesFlush = false)
      (h : Flushes [.types, .vars] [.types, .vars] s s') : FlushesBoth refused s s' (.ok ())
  | first (htypes : s.types.refusesFlush = false) (hvars : s.vars.refusesFlush = true)
      (h : Flushes [.types, .vars] [.types] s s') : FlushesBoth refused s s' (.error refused)
  | neither (htypes : s.types.refusesFlush = true) (h : Flushes [.types] [] s s') :
      FlushesBoth refused s s' (.error refused)

theorem flushesBoth (s : Sink) :
    FlushesBoth .flushRefused s (finalState (flush s)) (outcome (flush s)) := by
  rw [flush]
  cases htypes : s.types.refusesFlush with
  | true =>
    obtain ⟨s', hask, hflushes⟩ := flushes_ask_refused .types htypes
    rw [bind_of_error hask]
    exact .neither htypes hflushes
  | false =>
    obtain ⟨s₁, hask, hfirst⟩ := flushes_ask_flush .types htypes
    rw [bind_of_ok hask]
    have hsame : (s₁.writer .vars).refusesFlush = s.vars.refusesFlush := hfirst.refuses .vars
    cases hvars : s.vars.refusesFlush with
    | true =>
      obtain ⟨s₂, hask', hsecond⟩ := flushes_ask_refused .vars (hsame.trans hvars)
      rw [hask']
      exact .first htypes hvars (hfirst.trans hsecond)
    | false =>
      obtain ⟨s₂, hask', hsecond⟩ := flushes_ask_flush .vars (hsame.trans hvars)
      rw [hask']
      exact .both htypes hvars (hfirst.trans hsecond)

/-- Forms are written without flushing anything. -/
theorem flushes_performEach {jobs : List Job} (h : ∀ job ∈ jobs, job.Writes) (s : Sink) :
    Flushes [] [] s (Job.performEach jobs s) := by
  have hjob : ∀ job : Job, job.Writes → ∀ s, Flushes [] [] s (finalState (job.perform s)) := by
    intro job hwrites s
    cases job with
    | flush => exact hwrites.elim
    | write stream form =>
      have hfirst := flushes_ask_write stream (Utf8.encode (form.print 0 {}).1) s
      rw [Job.perform, writeForm]
      cases hask : ask stream (.write (Utf8.encode (form.print 0 {}).1)) s with
      | error e s' =>
        rw [hask] at hfirst
        rwa [bind_of_error hask]
      | ok _ s' =>
        rw [hask] at hfirst
        rw [bind_of_ok hask]
        exact hfirst.trans (flushes_ask_write stream _ s')
  induction jobs generalizing s with
  | nil => exact .refl s
  | cons job jobs ih =>
    obtain ⟨hfirst, hrest⟩ := List.forall_mem_cons.1 h
    exact (hjob job hfirst s).trans (ih hrest _)

end Sink

open Sink

namespace Backend

variable {b : Backend σ} {p : Program} {s t : σ}

/-- What the calls before the last one do to the streams, they do without flushing. -/
theorem FlushesAtEnd.flushes_opening (hb : b.FlushesAtEnd) (p : Program) (s : σ) :
    Flushes [] [] (Carrier.sink s) (Carrier.sink (finalState (b.performCalls p.opening s))) := by
  have hcall : ∀ call ∈ p.opening, (call.perform b).Does Job.Writes := by
    intro call hmem
    rcases List.mem_cons.1 hmem with rfl | hmem
    · exact hb.start p
    · obtain ⟨d, -, rfl⟩ := List.mem_map.1 hmem
      cases d with
      | typedef d => exact hb.typedef p d
      | enum d => exact hb.enum p d
      | record kind d => exact hb.record p kind d
      | service d => exact hb.service p d
      | constant d => exact hb.constant p d
  have hcalls : ∀ calls : List Call, (∀ call ∈ calls, (call.perform b).Does Job.Writes) →
      (b.performCalls calls).Does Job.Writes := by
    intro calls
    induction calls with
    | nil => exact fun _ => .nothing ()
    | cons call calls ih =>
      intro h
      obtain ⟨hfirst, hrest⟩ := List.forall_mem_cons.1 h
      exact hfirst.bind fun _ => ih hrest
  obtain ⟨jobs, hwrites, hjobs⟩ := hcalls p.opening hcall s
  rw [hjobs]
  exact flushes_performEach hwrites _

theorem flushesBoth_onSink [LawfulCarrier σ] (s : σ) :
    FlushesBoth (.write .flushRefused) (Carrier.sink s)
      (Carrier.sink (finalState (Step.onSink flush s))) (outcome (Step.onSink flush s)) := by
  have hflush := flushesBoth (Carrier.sink s)
  rw [Step.onSink]
  generalize flush (Carrier.sink s) = result at hflush ⊢
  cases result with
  | ok _ s' =>
    simp only [finalState, LawfulCarrier.sink_withSink]
    cases hflush with
    | both htypes hvars h => exact .both htypes hvars h
  | error e s' =>
    simp only [finalState, LawfulCarrier.sink_withSink]
    cases hflush with
    | first htypes hvars h => exact .first htypes hvars h
    | neither htypes h => exact .neither htypes h

/-- If the calls before the last one succeed, the run ends as flushing does. -/
theorem FlushesAtEnd.flushesBoth_generate [LawfulCarrier σ] (hb : b.FlushesAtEnd)
    (hopening : b.Completes p.opening s t) :
    FlushesBoth (.write .flushRefused) (Carrier.sink s) (Carrier.sink (finalState (b.generate p s)))
      (outcome (b.generate p s)) := by
  rw [completes_iff] at hopening
  have hfirst := hb.flushes_opening p s
  have hrun : b.generate p s = Step.onSink flush t := by
    rw [generate_eq_performCalls, Program.calls, performCalls_append, bind_of_ok hopening, performCalls,
      performCalls, bind_pure_unit, Call.perform, hb.finish]
  rw [hopening, finalState] at hfirst
  rw [hrun]
  have htypes : (Carrier.sink t).types.refusesFlush = (Carrier.sink s).types.refusesFlush :=
    hfirst.refuses .types
  have hvars : (Carrier.sink t).vars.refusesFlush = (Carrier.sink s).vars.refusesFlush :=
    hfirst.refuses .vars
  have hflush := flushesBoth_onSink t
  generalize outcome (Step.onSink flush t) = result at hflush ⊢
  cases hflush with
  | both h h' hflushes => exact .both (htypes ▸ h) (hvars ▸ h') (hfirst.trans hflushes)
  | first h h' hflushes => exact .first (htypes ▸ h) (hvars ▸ h') (hfirst.trans hflushes)
  | neither h hflushes => exact .neither (htypes ▸ h) (hfirst.trans hflushes)

/-- Behind a call that fails, the run ends there. -/
theorem FlushesAtEnd.flushes_generate (hb : b.FlushesAtEnd)
    (hopening : ¬ ∃ t, b.Completes p.opening s t) :
    Flushes [] [] (Carrier.sink s) (Carrier.sink (finalState (b.generate p s))) := by
  have hfirst := hb.flushes_opening p s
  cases hrun : b.performCalls p.opening s with
  | ok _ t => exact absurd ⟨t, completes_iff.2 hrun⟩ hopening
  | error e t =>
    have hgenerate : b.generate p s = .error e t := by
      rw [generate_eq_performCalls, Program.calls, performCalls_append, bind_of_error hrun]
    rw [hgenerate]
    rwa [hrun] at hfirst

/-- A run makes the calls for its program in order, up to the first that fails, and ends as the last of
them; so it calls for the finish exactly if all else has succeeded. If the backend only writes until then
and finishes by flushing, a run that fails before flushes nothing, a run that succeeds flushes both streams
once, that of types first, and the other stream is not flushed if the first refuses. -/
theorem run_calls (b : Backend σ) (p : Program) (s : σ) :
    (∃ made, b.logging.generate p ⟨s, []⟩ = Logged.ending made (b.generate p s) ∧
      b.Makes p.calls s made (b.generate p s) ∧
      (.finish p ∈ made ↔ ∃ t, b.Completes p.opening s t)) ∧
    ∀ [LawfulCarrier σ], b.FlushesAtEnd →
      let before := Carrier.sink s
      let after := Carrier.sink (finalState (b.generate p s))
      ((¬ ∃ t, b.Completes p.opening s t) → Flushes [] [] before after) ∧
      ((∃ t, b.generate p s = .ok () t) → Flushes [.types, .vars] [.types, .vars] before after) ∧
      ((∃ t, b.Completes p.opening s t) → before.types.refusesFlush = true →
        (∃ t, b.generate p s = .error (.write .flushRefused) t) ∧ Flushes [.types] [] before after) ∧
      ((∃ t, b.Completes p.opening s t) →
        FlushesBoth (.write .flushRefused) before after (outcome (b.generate p s))) := by
  refine ⟨?_, fun hb => ⟨hb.flushes_generate, ?_, ?_, ?_⟩⟩
  · obtain ⟨made, hrun, hmakes⟩ := makes_performCalls b p.calls [] s
    rw [← generate_eq_performCalls] at hmakes
    refine ⟨made, ?_, hmakes, hmakes.finish_mem_iff⟩
    rw [generate_eq_performCalls, generate_eq_performCalls]
    exact hrun
  · rintro ⟨t, hrun⟩
    have hopening : ∃ u, b.Completes p.opening s u := by
      rw [generate_eq_performCalls, ← completes_iff, Program.calls, completes_append] at hrun
      obtain ⟨u, hopening, -⟩ := hrun
      exact ⟨u, hopening⟩
    obtain ⟨u, hopening⟩ := hopening
    have hends := hb.flushesBoth_generate hopening
    rw [hrun] at hends ⊢
    cases hends with
    | both htypes hvars h => exact h
  · rintro ⟨t, hopening⟩ hrefuses
    have hends := hb.flushesBoth_generate hopening
    cases hrun : b.generate p s with
    | ok _ u =>
      rw [hrun] at hends
      cases hends with
      | both htypes => cases hrefuses.symm.trans htypes
    | error e u =>
      rw [hrun] at hends
      cases hends with
      | first htypes => cases hrefuses.symm.trans htypes
      | neither htypes h => exact ⟨⟨u, rfl⟩, h⟩
  · rintro ⟨t, hopening⟩
    exact hb.flushesBoth_generate hopening

/-- Nothing is flushed if the first of two constants fails, both streams if none does, and only that of types
if it refuses. -/
theorem run_calls_constants :
    let p : Program :=
      { info := { name := "p" }
        definitions :=
          [.constant { name := "a", type := .base .i32, value := .integer 1 },
            .constant { name := "b", type := .base .i32, value := .integer 2 }] }
    let failing := Journal.backend "rec" "txt" (some "a")
    let recording := Journal.backend "rec" "txt" none
    let refusing : Journal := { streams := { types := { refusesFlush := true } } }
    (failing.FlushesAtEnd ∧ (¬ ∃ t, failing.Completes p.opening {} t) ∧
      Flushes [] [] {} (Carrier.sink (finalState (failing.generate p {})))) ∧
    (recording.FlushesAtEnd ∧ (∃ t, recording.generate p {} = .ok () t) ∧
      Flushes [.types, .vars] [.types, .vars] {} (Carrier.sink (finalState (recording.generate p {})))) ∧
    ((∃ t, recording.Completes p.opening refusing t) ∧ refusing.streams.types.refusesFlush = true ∧
      Flushes [.types] [] refusing.streams (Carrier.sink (finalState (recording.generate p refusing)))) := by
  intro p failing recording refusing
  have hsucceeds : ∀ result : EStateM.Result EmitError Journal Unit,
      (outcome result).isOk = true → ∃ t, result = .ok () t := by
    rintro (⟨_, t⟩ | ⟨e, t⟩) h
    · exact ⟨t, rfl⟩
    · cases h
  have hopening : ¬ ∃ t, failing.Completes p.opening {} t := by
    rintro ⟨t, h⟩
    have hfails : (outcome (failing.performCalls p.opening {})).isOk = false := by decide +kernel
    rw [completes_iff.1 h] at hfails
    cases hfails
  have hok : ∃ t, recording.generate p {} = .ok () t := hsucceeds _ (by decide +kernel)
  have hcompletes : ∃ t, recording.Completes p.opening refusing t := by
    obtain ⟨t, hrun⟩ := hsucceeds (recording.performCalls p.opening refusing) (by decide +kernel)
    exact ⟨t, completes_iff.2 hrun⟩
  have hfailing : failing.FlushesAtEnd := Journal.flushesAtEnd _ _ _
  have hrecording : recording.FlushesAtEnd := Journal.flushesAtEnd _ _ _
  obtain ⟨hnone, -⟩ := (run_calls failing p {}).2 hfailing
  obtain ⟨-, hboth, -⟩ := (run_calls recording p {}).2 hrecording
  obtain ⟨-, -, hrefused, -⟩ := (run_calls recording p refusing).2 hrecording
  exact ⟨⟨hfailing, hopening, hnone hopening⟩, ⟨hrecording, hok, hboth hok⟩, hcompletes, rfl,
    (hrefused hcompletes rfl).2⟩

end Backend

end IdlGen
