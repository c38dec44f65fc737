import IdlGen.Lisp.Backend
import IdlGen.Proofs.Sink

/-!
# What a run of the Lisp backend leaves on its streams

Every declaration has a form that depends on nothing but the declaration and its program's info, and
goes as a whole to one stream. So a stream is a beginning and the forms of its declarations in source
order, and a run that fails stops between two forms: the streams hold what a run of the declarations
before the failing one leaves there.
-/

namespace IdlGen

/-- The stream that the form of a declaration goes to. Typedefs leave no form. -/
def Definition.stream? : Definition → Option Stream
  | .typedef _ => none
  | .enum _ => some .types
  | .record _ _ => some .types
  | .service _ => some .types
  | .constant _ => some .vars

/-- Whether a declaration leaves its form on a stream. -/
def Definition.isOn (stream : Stream) (d : Definition) : Bool := d.stream? = some stream

namespace Lisp

open Sink

/-- The form of a declaration of a program. -/
def form (info : ProgramInfo) : Definition → Except EmitError Layout
  | .typedef _ => .ok .empty
  | .enum d => .ok (enumForm d)
  | .record kind d => recordForm info kind d
  | .service d => serviceForm info d
  | .constant d => constantForm info d

/-- The forms at the beginning of a stream. -/
def preamble (info : ProgramInfo) (includes : List ProgramInfo) : Stream → List Layout
  | .types => [header (packageOf info), packageForm { info, includes },
      inPackageForm (packageOf info)]
  | .vars => [header (packageOf info), inPackageForm (packageOf info)]

/-- The bytes of a declaration's form, none if it has no form. -/
def formBytes (info : ProgramInfo) (d : Definition) : List UInt8 :=
  match form info d with
  | .ok f => f.bytes
  | .error _ => []

/-- A run on two empty streams in memory. -/
def run (p : Program) : EStateM.Result EmitError Sink Unit := (backend : Backend Sink).generate p {}

/-! ### One declaration -/

theorem adds_start (p : Program) :
    Adds ((backend : Backend Sink).start p) fun stream =>
      (preamble p.info p.includes stream).flatMap Layout.bytes :=
  ((adds_write _ _).andThen ((adds_write _ _).andThen ((adds_write _ _).andThen
    ((adds_write _ _).andThen (adds_write _ _))))).congr fun stream => by
      cases stream with
      | types =>
        simp [preamble, only]
        rfl
      | vars => simp [preamble, only]

/-- A declaration that goes to a stream writes its form there and does nothing else. -/
theorem declaration_of_stream {σ : Type} [Carrier σ] (p : Program) {d : Definition} {stream : Stream}
    (hstream : d.stream? = some stream) :
    (backend : Backend σ).declaration p d = Step.write? stream (form p.info d) := by
  cases d with
  | typedef d => cases hstream
  | enum d | record kind d | service d | constant d =>
    obtain rfl := Option.some.inj hstream
    rfl

theorem declaration_of_none {σ : Type} [Carrier σ] (p : Program) {d : Definition}
    (hstream : d.stream? = none) : (backend : Backend σ).declaration p d = pure () := by
  cases d with
  | typedef d => rfl
  | enum d | record kind d | service d | constant d => cases hstream

theorem form_of_none (info : ProgramInfo) {d : Definition} (hstream : d.stream? = none) :
    form info d = .ok .empty := by
  cases d with
  | typedef d => rfl
  | enum d | record kind d | service d | constant d => cases hstream

theorem adds_declaration (p : Program) {d : Definition} {f : Layout} (hform : form p.info d = .ok f) :
    Adds ((backend : Backend Sink).declaration p d) fun stream =>
      if d.isOn stream then formBytes p.info d else [] := by
  have hbytes : formBytes p.info d = f.bytes := by rw [formBytes, hform]
  rw [hbytes]
  cases hstream : d.stream? with
  | none =>
    rw [declaration_of_none p hstream]
    refine Adds.nothing.congr fun stream => ?_
    simp [Definition.isOn, hstream]
  | some target =>
    rw [declaration_of_stream p hstream, hform]
    refine (adds_write target f).congr fun stream => ?_
    simp only [only, Definition.isOn, hstream, Option.some.injEq, decide_eq_true_eq,
      eq_comm (a := stream)]

/-- A declaration without form fails with the form's error, before it writes anything. -/
theorem declaration_error (p : Program) {d : Definition} {e : EmitError}
    (hform : form p.info d = .error e) (s : Sink) :
    (backend : Backend Sink).declaration p d s = .error e s := by
  cases hstream : d.stream? with
  | none =>
    rw [form_of_none p.info hstream] at hform
    cases hform
  | some target =>
    rw [declaration_of_stream p hstream, hform]
    rfl

/-! ### All declarations -/

theorem adds_declarations (p : Program) (ds : List Definition)
    (hforms : ∀ d ∈ ds, ∃ f, form p.info d = .ok f) :
    Adds ((backend : Backend Sink).declarations p ds) fun stream =>
      (ds.filter (Definition.isOn stream)).flatMap (formBytes p.info) := by
  induction ds with
  | nil => exact Adds.nothing.congr fun stream => rfl
  | cons d ds ih =>
    obtain ⟨f, hf⟩ := hforms d List.mem_cons_self
    have hrest := ih fun x hx => hforms x (List.mem_cons_of_mem _ hx)
    refine ((adds_declaration p hf).andThen hrest).congr fun stream => ?_
    rw [List.filter_cons]
    split <;> simp

theorem declarations_append (p : Program) (before after : List Definition) :
    (backend : Backend Sink).declarations p (before ++ after) =
      (backend : Backend Sink).declarations p before >>= fun _ =>
        (backend : Backend Sink).declarations p after := by
  induction before with
  | nil => rfl
  | cons d before ih =>
    simp only [List.cons_append, Backend.declarations, ih, bind_assoc]

/-- Either every declaration has a form, or there is a first one that has none. -/
theorem forms_or_first_error (info : ProgramInfo) (ds : List Definition) :
    (∀ d ∈ ds, ∃ f, form info d = .ok f) ∨
      ∃ before d after e, ds = before ++ d :: after ∧
        (∀ x ∈ before, ∃ f, form info x = .ok f) ∧ form info d = .error e := by
  induction ds with
  | nil => exact .inl fun d hd => absurd hd List.not_mem_nil
  | cons d ds ih =>
    cases hd : form info d with
    | error e => exact .inr ⟨[], d, ds, e, rfl, fun x hx => absurd hx List.not_mem_nil, hd⟩
    | ok f =>
      rcases ih with hall | ⟨before, bad, after, e, rfl, hbefore, hbad⟩
      · exact .inl (List.forall_mem_cons.2 ⟨⟨f, hd⟩, hall⟩)
      · exact .inr ⟨d :: before, bad, after, e, rfl, List.forall_mem_cons.2 ⟨⟨f, hd⟩, hbefore⟩, hbad⟩

/-! ### A whole run -/

/-- If every declaration has a form, a run succeeds. -/
theorem run_of_forms (p : Program) (hforms : ∀ d ∈ p.definitions, ∃ f, form p.info d = .ok f) :
    ∃ s, run p = .ok () s ∧ ∀ stream, s.contents stream =
      (preamble p.info p.includes stream).flatMap Layout.bytes ++
        (p.definitions.filter (Definition.isOn stream)).flatMap (formBytes p.info) := by
  have hrun := (adds_start p).andThen ((adds_declarations p p.definitions hforms).andThen
    (adds_onSink adds_flush))
  obtain ⟨s, hrun, -, hgain⟩ := hrun {} inMemory_empty
  refine ⟨s, hrun, fun stream => ?_⟩
  simpa using hgain stream

/-- At the first declaration without form, a run stops with that declaration's error, and with the
streams of a run of the declarations before it. -/
theorem run_of_first_error (p : Program) {before after : List Definition} {d : Definition}
    {e : EmitError} (hsplit : p.definitions = before ++ d :: after)
    (hbefore : ∀ x ∈ before, ∃ f, form p.info x = .ok f) (hd : form p.info d = .error e) :
    ∃ s s', run p = .error e s ∧ run { p with definitions := before } = .ok () s' ∧
      s.contents = s'.contents := by
  have hstart := (adds_start p).andThen (adds_declarations p before hbefore)
  obtain ⟨s, hrun, -, hgain⟩ := hstart {} inMemory_empty
  obtain ⟨s', hrun', hgain'⟩ := run_of_forms { p with definitions := before } hbefore
  refine ⟨s, s', ?_, hrun', funext fun stream => by simp [hgain, hgain']⟩
  -- Up to the failing declaration this is the run that only has the declarations before it.
  have hwhole : (backend : Backend Sink).generate p =
      ((backend : Backend Sink).start p >>= fun _ =>
        (backend : Backend Sink).declarations p before) >>= fun _ =>
        (backend : Backend Sink).declaration p d >>= fun _ =>
          (backend : Backend Sink).declarations p after >>= fun _ =>
            (backend : Backend Sink).finish p := by
    simp only [Backend.generate, hsplit, declarations_append, Backend.declarations, bind_assoc]
  change (backend : Backend Sink).generate p {} = _
  rw [hwhole, bind_of_ok hrun, bind_of_error (declaration_error p hd s)]

theorem forms_of_run {p : Program} {s : Sink} (hrun : run p = .ok () s) :
    ∀ d ∈ p.definitions, ∃ f, form p.info d = .ok f := by
  rcases forms_or_first_error p.info p.definitions with hforms | ⟨before, d, after, e, hsplit, hbefore, hd⟩
  · exact hforms
  · obtain ⟨s₁, -, herror, -⟩ := run_of_first_error p hsplit hbefore hd
    rw [hrun] at herror
    cases herror

/-- A run that fails has a first declaration without form, whose error it ends with. -/
theorem first_error_of_run {p : Program} {e : EmitError} {s : Sink} (hrun : run p = .error e s) :
    ∃ before d after, p.definitions = before ++ d :: after ∧
      (∀ x ∈ before, ∃ f, form p.info x = .ok f) ∧ form p.info d = .error e := by
  rcases forms_or_first_error p.info p.definitions with
    hforms | ⟨before, d, after, e', hsplit, hbefore, hd⟩
  · obtain ⟨s', hrun', -⟩ := run_of_forms p hforms
    rw [hrun] at hrun'
    cases hrun'
  · obtain ⟨s₁, -, hrun₁, -⟩ := run_of_first_error p hsplit hbefore hd
    rw [hrun] at hrun₁
    injection hrun₁ with herror hstate
    exact ⟨before, d, after, hsplit, hbefore, herror ▸ hd⟩

/-- After a run that succeeds a stream holds its preamble and the forms that belong there. -/
theorem contents_of_run {p : Program} {s : Sink} (hrun : run p = .ok () s) (stream : Stream) :
    s.contents stream = (preamble p.info p.includes stream).flatMap Layout.bytes ++
      (p.definitions.filter (Definition.isOn stream)).flatMap (formBytes p.info) := by
  obtain ⟨s₁, hrun₁, hgain⟩ := run_of_forms p (forms_of_run hrun)
  rw [hrun] at hrun₁
  injection hrun₁ with _ hstate
  rw [hstate, hgain]

/-- However it ends, a run leaves the forms of the first declarations and nothing else. -/
theorem contents_of_end (p : Program) :
    ∃ written, written <+: p.definitions ∧ (∀ d ∈ written, ∃ f, form p.info d = .ok f) ∧
      ∀ stream, (finalState (run p)).contents stream =
        (preamble p.info p.includes stream).flatMap Layout.bytes ++
          (written.filter (Definition.isOn stream)).flatMap (formBytes p.info) := by
  rcases forms_or_first_error p.info p.definitions with
    hforms | ⟨before, d, after, e, hsplit, hbefore, hd⟩
  · obtain ⟨s, hrun, hcontents⟩ := run_of_forms p hforms
    exact ⟨p.definitions, List.prefix_rfl, hforms, by rw [hrun]; exact hcontents⟩
  · obtain ⟨s, s', hrun, hrun', hsame⟩ := run_of_first_error p hsplit hbefore hd
    refine ⟨before, hsplit ▸ List.prefix_append _ _, hbefore, fun stream => ?_⟩
    rw [hrun, finalState, hsame]
    exact contents_of_run hrun' stream

/-- The forms of declarations that all have one. -/
theorem mapM_form (info : ProgramInfo) (ds : List Definition)
    (hforms : ∀ d ∈ ds, ∃ f, form info d = .ok f) :
    ∃ forms, ds.mapM (form info) = .ok forms ∧
      ds.flatMap (formBytes info) = forms.flatMap Layout.bytes := by
  induction ds with
  | nil => exact ⟨[], rfl, rfl⟩
  | cons d ds ih =>
    obtain ⟨f, hf⟩ := hforms d List.mem_cons_self
    obtain ⟨fs, hfs, hbytes⟩ := ih fun x hx => hforms x (List.mem_cons_of_mem _ hx)
    refine ⟨f :: fs, ?_, ?_⟩
    · rw [List.mapM_cons, hf, hfs]
      rfl
    · rw [List.flatMap_cons, List.flatMap_cons, hbytes, formBytes, hf]

/-- If the declarations of each stream have forms, all have: typedefs always do. -/
theorem forms_of_streams {info : ProgramInfo} {ds es : List Definition}
    (hsame : ∀ stream, ds.filter (Definition.isOn stream) = es.filter (Definition.isOn stream))
    (hforms : ∀ d ∈ es, ∃ f, form info d = .ok f) : ∀ d ∈ ds, ∃ f, form info d = .ok f := by
  intro d hd
  cases hstream : d.stream? with
  | none => exact ⟨.empty, form_of_none info hstream⟩
  | some stream =>
    have hon : d ∈ ds.filter (Definition.isOn stream) :=
      List.mem_filter.2 ⟨hd, by simp [Definition.isOn, hstream]⟩
    rw [hsame] at hon
    exact hforms d (List.mem_filter.1 hon).1

/-- A run that succeeds leaves on each stream its preamble and then the forms of the declarations
that belong there, each followed by a blank line, in source order. A run that fails does so with the
error of the first declaration whose form fails, and leaves what a run of the declarations before it
leaves. And declarations in another order that is the same within each stream leave the same. -/
theorem streams_in_source_order (p : Program) :
    (∀ s, run p = .ok () s → ∀ stream, ∃ forms,
      (p.definitions.filter (Definition.isOn stream)).mapM (form p.info) = .ok forms ∧
        s.contents stream = (preamble p.info p.includes stream ++ forms).flatMap Layout.bytes) ∧
    (∀ e s, run p = .error e s → ∃ before d after s', p.definitions = before ++ d :: after ∧
      (∀ x ∈ before, ∃ f, form p.info x = .ok f) ∧ form p.info d = .error e ∧
        run { p with definitions := before } = .ok () s' ∧ s.contents = s'.contents) ∧
    (∀ ds : List Definition,
      (∀ stream, ds.filter (Definition.isOn stream) =
        p.definitions.filter (Definition.isOn stream)) →
      ∀ s, run p = .ok () s →
        ∃ s', run { p with definitions := ds } = .ok () s' ∧ s'.contents = s.contents) := by
  refine ⟨fun s hrun stream => ?_, fun e s hrun => ?_, fun ds hsame s hrun => ?_⟩
  · obtain ⟨forms, hforms, hbytes⟩ := mapM_form p.info
      (p.definitions.filter (Definition.isOn stream)) fun d hd =>
        forms_of_run hrun d (List.mem_filter.1 hd).1
    refine ⟨forms, hforms, ?_⟩
    rw [contents_of_run hrun, hbytes, List.flatMap_append]
  · rcases forms_or_first_error p.info p.definitions with
      hforms | ⟨before, d, after, e', hsplit, hbefore, hd⟩
    · obtain ⟨s', hrun', -⟩ := run_of_forms p hforms
      rw [hrun] at hrun'
      cases hrun'
    · obtain ⟨s₁, s', hrun₁, hrun', hsame⟩ := run_of_first_error p hsplit hbefore hd
      rw [hrun] at hrun₁
      injection hrun₁ with herror hstate
      exact ⟨before, d, after, s', hsplit, hbefore, herror ▸ hd, hrun', hstate ▸ hsame⟩
  · obtain ⟨s', hrun', hgain⟩ := run_of_forms { p with definitions := ds }
      (forms_of_streams hsame (forms_of_run hrun))
    refine ⟨s', hrun', funext fun stream => ?_⟩
    rw [hgain, contents_of_run hrun]
    simp only [hsame]

end Lisp

end IdlGen
