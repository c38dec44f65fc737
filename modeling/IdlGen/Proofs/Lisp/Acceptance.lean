import IdlGen.Proofs.Lisp.Conformance
import IdlGen.Proofs.Lisp.Rebuilding

/-!
# Which programs are accepted

A run of the Lisp backend comes upon the values of constants and the defaults of fields, in records and
in what methods throw. It succeeds exactly if all these literals conform to their types, and otherwise
ends with what is wrong with the first that does not. The defaults of arguments, and those in records
that only stand in types, have no say in this.
-/

namespace IdlGen

open Lisp

/-! ### Literals in programs -/

/-- The default of a field with its type, if there is one. -/
def FieldOf.literals (f : Field) : List (Ty × Literal) :=
  match f.default with
  | some v => [(f.type, v)]
  | none => []

/-- The literals that a declaration holds, with their types and in the order of the text. -/
def Definition.literals : Definition → List (Ty × Literal)
  | .typedef _ => []
  | .enum _ => []
  | .record _ d => d.fields.flatMap FieldOf.literals
  | .service s => s.methods.flatMap fun m => m.exceptions.flatMap FieldOf.literals
  | .constant c => [(c.type, c.value)]

def Program.literals (p : Program) : List (Ty × Literal) := p.definitions.flatMap Definition.literals

/-- The error is what is wrong with the first literal that does not conform to its type. -/
def FirstFault (literals : List (Ty × Literal)) (e : EmitError) : Prop :=
  ∃ before t v after, literals = before ++ (t, v) :: after ∧
    (∀ given ∈ before, Conforms given.1 given.2) ∧ FirstViolation t v e

namespace Lisp

/-- The steps check literals against their types. -/
abbrev VetsGiven {α : Type} : List (Ty × Literal) → Except EmitError α → Prop :=
  Vets (fun given => Conforms given.1 given.2) fun given => FirstViolation given.1 given.2

variable (current : ProgramInfo)

theorem vets_given (t : Ty) (v : Literal) : VetsGiven [(t, v)] (literal current t v) := by
  rcases (vetted current t v).cases with ⟨text, hwritten, hconforms⟩ | ⟨e, hrefused, hviolation⟩
  · rw [hwritten]
    exact .met (i := (t, v)) hconforms text
  · rw [hrefused]
    exact .unmet (i := (t, v)) hviolation

theorem vets_fieldEntry (f : Field) : VetsGiven f.literals (fieldEntry current f) := by
  have hdefault : VetsGiven f.literals (defaultValue current f) := by
    unfold FieldOf.literals defaultValue
    cases f.default with
    | none => exact .nothing _
    | some v => exact vets_given current f.type v
  apply hdefault.andThen
  intro value
  exact .nothing _

theorem vets_fieldList (fields : List Field) :
    VetsGiven (fields.flatMap FieldOf.literals) (fieldList current fields) :=
  (Vets.mapM fun f _ => vets_fieldEntry current f).map aligned

theorem vets_exceptionsLine (exceptions : List Field) :
    VetsGiven (exceptions.flatMap FieldOf.literals) (exceptionsLine current exceptions) := by
  cases exceptions with
  | nil => exact .nothing _
  | cons f more =>
    apply (vets_fieldList current (f :: more)).andThen
    intro fields
    exact .nothing _

theorem vets_methodClause (m : Method) :
    VetsGiven (m.exceptions.flatMap FieldOf.literals) (methodClause current m) := by
  apply (vets_exceptionsLine current m.exceptions).andThen
  intro exceptions
  exact .nothing _

theorem vets_form (d : Definition) : VetsGiven d.literals (form current d) := by
  cases d with
  | typedef d | enum d => exact .nothing _
  | record kind d =>
    apply (vets_fieldList current d.fields).andThen
    intro fields
    exact .nothing _
  | service s =>
    have hmethods : VetsGiven (s.methods.flatMap fun m => m.exceptions.flatMap FieldOf.literals)
        (s.methods.mapM (methodClause current)) :=
      Vets.mapM fun m _ => vets_methodClause current m
    apply hmethods.andThen
    intro clauses
    exact .nothing _
  | constant c =>
    apply (vets_given current c.type c.value).andThen
    intro value
    exact .nothing _

/-! ### Runs -/

theorem vets_forms (p : Program) : VetsGiven p.literals (p.definitions.mapM (form p.info)) :=
  Vets.mapM fun d _ => vets_form p.info d

theorem firstFault_of_run {p : Program} {e : EmitError} {s : Sink} (hrun : run p = .error e s) :
    FirstFault p.literals e := by
  obtain ⟨before, d, after, hsplit, hbefore, hd⟩ := first_error_of_run hrun
  have hvets := vets_forms p
  rw [hsplit, mapM_of_first_error hbefore hd after] at hvets
  obtain ⟨before, ⟨t, v⟩, after, hliterals, hconform, hviolation⟩ := hvets.bad_of_error
  exact ⟨before, t, v, after, hliterals, hconform, hviolation⟩

/-- To write the literals alone is to find the first fault. -/
theorem mapM_literal_of_firstFault {given : List (Ty × Literal)} {e : EmitError}
    (h : FirstFault given e) : given.mapM (fun g => literal current g.1 g.2) = .error e := by
  obtain ⟨before, t, v, after, rfl, hbefore, hviolation⟩ := h
  apply mapM_of_first_error (a := (t, v)) _ (literal_of_firstViolation hviolation)
  intro g hg
  exact literal_of_conforms current (hbefore g hg)

theorem firstFault_unique {given : List (Ty × Literal)} {e e' : EmitError}
    (h : FirstFault given e) (h' : FirstFault given e') : e = e' := by
  -- Any program will do to write the literals for.
  let current : ProgramInfo := ⟨"", ∅⟩
  have hwritten := mapM_literal_of_firstFault current h
  rw [mapM_literal_of_firstFault current h'] at hwritten
  exact (Except.error.inj hwritten).symm

theorem not_conform_of_firstFault {given : List (Ty × Literal)} {e : EmitError}
    (h : FirstFault given e) : ¬ ∀ g ∈ given, Conforms g.1 g.2 := by
  obtain ⟨before, t, v, after, rfl, -, hviolation⟩ := h
  intro hall
  exact hviolation.not_conforms (hall (t, v) (List.mem_append_right _ List.mem_cons_self))

theorem run_ok_iff (p : Program) :
    (∃ s, run p = .ok () s) ↔ ∀ given ∈ p.literals, Conforms given.1 given.2 := by
  constructor
  · rintro ⟨s, hrun⟩
    obtain ⟨forms, hforms, -⟩ := mapM_form p.info p.definitions (forms_of_run hrun)
    have hvets := vets_forms p
    rw [hforms] at hvets
    exact hvets.good_of_ok
  · intro hall
    cases hrun : run p with
    | ok result s => exact ⟨s, rfl⟩
    | error e s => exact absurd hall (not_conform_of_firstFault (firstFault_of_run hrun))

theorem run_error_iff (p : Program) (e : EmitError) :
    (∃ s, run p = .error e s) ↔ FirstFault p.literals e := by
  constructor
  · rintro ⟨s, hrun⟩
    exact firstFault_of_run hrun
  · intro hfault
    cases hrun : run p with
    | ok result s => exact absurd ((run_ok_iff p).1 ⟨s, hrun⟩) (not_conform_of_firstFault hfault)
    | error e' s =>
      obtain rfl := firstFault_unique (firstFault_of_run hrun) hfault
      exact ⟨s, rfl⟩

/-! ### Idle defaults -/

theorem neutral_defaulting (change : Option Literal → Option Literal) :
    (Rebuilding.defaulting change).Neutral current current where
  enum_name _ := rfl
  record_name _ := rfl
  recordName _ := rfl
  fields d := by
    change List.Forall₂ _ d.fields (d.fields.map _)
    rw [List.forall₂_map_right_iff, List.forall₂_same]
    intro f hf
    exact ⟨rfl, rfl⟩
  typedef d := .inr ⟨d, rfl, rfl⟩

/-- Of an argument a form shows the name, the type and the id. -/
theorem form_mapArguments {g : Field → Field}
    (hg : ∀ f, (g f).id = f.id ∧ (g f).name = f.name ∧ (g f).type = f.type) (d : Definition) :
    form current (d.mapArguments g) = form current d := by
  have hargument : argument current ∘ g = argument current := by
    funext f
    obtain ⟨hid, hname, htype⟩ := hg f
    simp only [Function.comp, argument, hid, hname, htype]
  have hmethod : ∀ m : Method,
      Related Eq Eq (methodClause current m) (methodClause current { m with args := m.args.map g }) := by
    intro m
    simp only [methodClause, argumentList, List.map_map, hargument]
    exact .refl (fun _ => rfl) _
  cases d with
  | typedef d | enum d | record kind d | constant c => rfl
  | service s => exact (serviceForm_mapMethods hmethod s).eq.symm

theorem unmoved_mapIdleDefaults (change : Option Literal → Option Literal) :
    Unmoved (EmitError.Respelled (.defaulting change)) current fun d =>
      some (d.mapIdleDefaults change) := by
  constructor
  case dropped =>
    intro d hd
    cases hd
  case sameStream =>
    intro d d' hd
    obtain rfl := Option.some.inj hd
    cases d with
    | typedef d | enum d | record kind d | service s | constant c => rfl
  case sameForm =>
    intro d d' hd
    obtain rfl := Option.some.inj hd
    have hshown : ∀ f : Field, (f.mapDefault change).id = f.id ∧ (f.mapDefault change).name = f.name ∧
        (f.mapDefault change).type = f.type := fun f => ⟨rfl, rfl, rfl⟩
    rw [Definition.mapIdleDefaults, form_mapArguments current hshown]
    exact form_mapTypes (discreet_rebuild (neutral_defaulting current change)) d

theorem run_mapIdleDefaults (p : Program) (change : Option Literal → Option Literal) :
    (∃ s, run (p.mapIdleDefaults change) = .ok () s) ↔ ∃ s, run p = .ok () s := by
  have hiff := (unmoved_mapIdleDefaults p.info change).run_ok_iff (p := p)
  rw [List.filterMap_eq_map'] at hiff
  exact hiff

/-- A run succeeds exactly if all literals that the program holds conform to their types, whatever the
defaults of arguments and of records that stand in types. Otherwise it ends with the first fault; that
a type is unsupported is said of void only. -/
theorem run_accepts (p : Program) :
    ((∃ s, run p = .ok () s) ↔ ∀ given ∈ p.literals, Conforms given.1 given.2) ∧
    (∀ change, (∃ s, run (p.mapIdleDefaults change) = .ok () s) ↔ ∃ s, run p = .ok () s) ∧
    (∀ e, (∃ s, run p = .error e s) ↔ FirstFault p.literals e) ∧
    ∀ name s, run p = .error (.unsupportedType name) s → name = BaseType.void.name := by
  refine ⟨run_ok_iff p, run_mapIdleDefaults p, run_error_iff p, ?_⟩
  intro name s hrun
  obtain ⟨before, t, v, after, -, -, hviolation⟩ := firstFault_of_run hrun
  exact hviolation.unsupportedType_eq

end Lisp

end IdlGen
