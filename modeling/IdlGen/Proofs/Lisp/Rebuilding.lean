import IdlGen.Proofs.Except
import IdlGen.Proofs.Lisp.Streams
import IdlGen.Proofs.Schema.Rebuilding

/-!
# What can be rebuilt unnoticed

Typespecs and literals look at few things in a type: the names of enums, the names, owners and fields of
records, and what stands behind typedefs. A rebuilding that keeps these is neutral: it changes no typespec,
and a literal is written as before or refused as before. Only the name of a container in an error can be
another one.
-/

namespace IdlGen

namespace Ty

def isContainer : Ty → Bool
  | list _ | set _ | map _ _ => true
  | _ => false

end Ty

/-- The same error, or one that calls a container by the name that it has when rebuilt. -/
inductive EmitError.Respelled (r : Rebuilding) : EmitError → EmitError → Prop
  | same (e : EmitError) : Respelled r e e
  | container {t : Ty} (ht : t.isContainer) (found : String) :
      Respelled r (.literalShape t.describe found) (.literalShape (t.rebuild r).describe found)

/-- The rebuilding keeps what is looked at. The programs are those that refer to the types before and
after it. -/
structure Rebuilding.Neutral (r : Rebuilding) (current current' : ProgramInfo) : Prop where
  enum_name (d : EnumDef) : (r.enum d).name = d.name
  record_name (d : Record) : (r.record d).name = d.name
  recordName (d : Record) : Lisp.recordName (r.record d) current' = Lisp.recordName d current
  fields (d : Record) :
    List.Forall₂ (fun f g => g.name = f.name ∧ g.type = f.type) d.fields (r.record d).fields
  typedef (d : Typedef) :
    r.typedef d = d.target ∨ ∃ d', r.typedef d = .typedef d' ∧ d'.target = d.target

namespace Lisp

open EmitError (Respelled)

variable {r : Rebuilding} {current current' : ProgramInfo}

theorem typespec_typedef (current : ProgramInfo) (d : Typedef) :
    typespec current (.typedef d) = typespec current d.target := by
  obtain ⟨name, owner, target, doc⟩ := d
  rfl

theorem typespec_rebuild (hr : r.Neutral current current') (t : Ty) :
    typespec current' (t.rebuild r) = typespec current t := by
  induction t with
  | base b => rfl
  | enum d => simp only [Ty.rebuild_enum, typespec, hr.enum_name]
  | record kind d ih =>
    simp only [Ty.rebuild_record, typespec, hr.recordName]
    rfl
  | list element ih | set element ih => simp only [Ty.rebuild_list, Ty.rebuild_set, typespec, ih]
  | map key value ihKey ihValue => simp only [Ty.rebuild_map, typespec, ihKey, ihValue]
  | typedef d ih =>
    rw [typespec_typedef, Ty.rebuild_typedef, ← ih]
    rcases hr.typedef (d.map (Ty.rebuild r)) with hsame | ⟨d', hsame, htarget⟩
    · rw [hsame]
      rfl
    · rw [hsame, typespec_typedef, htarget]
      rfl

theorem trueType_rebuild (hr : r.Neutral current current') (t : Ty) :
    (t.rebuild r).trueType = t.trueType.rebuild r := by
  induction t with
  | base b | enum d | list element | set element | map key value => rfl
  | record kind d =>
    have hself : (Ty.record kind d).trueType = .record kind d := rfl
    rw [hself, Ty.rebuild_record]
    rfl
  | typedef d ih =>
    rw [Ty.trueType_typedef, Ty.rebuild_typedef, ← ih]
    rcases hr.typedef (d.map (Ty.rebuild r)) with hsame | ⟨d', hsame, htarget⟩
    · rw [hsame]
      rfl
    · rw [hsame, Ty.trueType_typedef, htarget]
      rfl

/-! ### Literals -/

/-- A literal that has the wrong form for the rebuilt type is refused for the same reason. -/
theorem respelled_shapeError (hr : r.Neutral current current') (t : Ty) (v : Literal) :
    Respelled r (shapeError t.trueType v) (shapeError (t.trueType.rebuild r) v) := by
  cases hshape : t.trueType with
  | base b => exact .same _
  | enum d =>
    simp only [shapeError, Ty.rebuild_enum, Ty.describe, hr.enum_name]
    exact .same _
  | record kind d =>
    simp only [shapeError, Ty.rebuild_record, Ty.describe, hr.record_name]
    exact .same _
  | list element | set element | map key value => exact .container rfl _
  | typedef d => exact absurd hshape (t.trueType_ne_typedef d)

/-- Fields that go by the same name and hold a type and its rebuilt form. -/
def SameField (r : Rebuilding) (f g : Field) : Prop := g.name = f.name ∧ g.type = f.type.rebuild r

theorem sameFields (hr : r.Neutral current current') (d : Record) :
    List.Forall₂ (SameField r) d.fields (r.record (d.map (Ty.rebuild r))).fields := by
  have hfields := hr.fields (d.map (Ty.rebuild r))
  have hmap : (d.map (Ty.rebuild r)).fields = d.fields.map (FieldOf.map (Ty.rebuild r)) := rfl
  rw [hmap, List.forall₂_map_left_iff] at hfields
  exact hfields

/-- Fields in step are found by the same names. -/
theorem find?_sameFields {fields fields' : List Field}
    (h : List.Forall₂ (SameField r) fields fields') (name : String) :
    Option.Rel (SameField r) (fields.find? fun f => f.name = name)
      (fields'.find? fun f => f.name = name) := by
  induction h with
  | nil => exact .none
  | @cons f g fields fields' hfirst hrest ih =>
    rw [List.find?_cons, List.find?_cons, hfirst.1]
    split
    · exact .some hfirst
    · exact ih

theorem fieldOfKey_rebuild (hr : r.Neutral current current') (d : Record) (key : Literal) :
    Related (Respelled r) (SameField r) (fieldOfKey d key)
      (fieldOfKey (r.record (d.map (Ty.rebuild r))) key) := by
  cases key with
  | string name =>
    have hname : (r.record (d.map (Ty.rebuild r))).name = d.name := hr.record_name _
    have hfound : Option.Rel (SameField r) (d.fieldNamed? name)
        ((r.record (d.map (Ty.rebuild r))).fieldNamed? name) :=
      find?_sameFields (sameFields hr d) name
    simp only [fieldOfKey, hname]
    generalize d.fieldNamed? name = f at hfound ⊢
    generalize (r.record (d.map (Ty.rebuild r))).fieldNamed? name = g at hfound ⊢
    cases hfound with
    | some hsame => exact .ok hsame
    | none => exact .error (.same _)
  | integer n | double x | list items | map entries => exact .error (.same _)

/-- What has to be shown of a literal: by a type and by its rebuilt form it comes to the same. -/
def Unnoticed (r : Rebuilding) (current current' : ProgramInfo) (v : Literal) : Prop :=
  ∀ t : Ty, Related (Respelled r) Eq (literal current t v) (literal current' (t.rebuild r) v)

theorem literals_rebuild {items : List Literal}
    (ih : ∀ item ∈ items, Unnoticed r current current' item) (element : Ty) :
    Related (Respelled r) Eq (literals current element items)
      (literals current' (element.rebuild r) items) := by
  induction items with
  | nil => exact .ok rfl
  | cons item items ihItems =>
    obtain ⟨hitem, hitems⟩ := List.forall_mem_cons.1 ih
    rw [literals, literals]
    apply (hitem element).bind_eq
    intro first
    apply (ihItems hitems).bind_eq
    intro rest
    exact .ok rfl

theorem pairs_rebuild {entries : List (Literal × Literal)}
    (ih : ∀ entry ∈ entries, Unnoticed r current current' entry.1 ∧
      Unnoticed r current current' entry.2) (key value : Ty) :
    Related (Respelled r) Eq (pairs current key value entries)
      (pairs current' (key.rebuild r) (value.rebuild r) entries) := by
  induction entries with
  | nil => exact .ok rfl
  | cons entry entries ihEntries =>
    obtain ⟨⟨hkey, hvalue⟩, hentries⟩ := List.forall_mem_cons.1 ih
    rw [pairs, pairs]
    apply (hkey key).bind_eq
    intro k
    apply (hvalue value).bind_eq
    intro v
    apply (ihEntries hentries).bind_eq
    intro rest
    exact .ok rfl

theorem assignments_rebuild (hr : r.Neutral current current') {entries : List (Literal × Literal)}
    (ih : ∀ entry ∈ entries, Unnoticed r current current' entry.2) (d : Record) :
    Related (Respelled r) Eq (assignments current d entries)
      (assignments current' (r.record (d.map (Ty.rebuild r))) entries) := by
  induction entries with
  | nil => exact .ok rfl
  | cons entry entries ihEntries =>
    obtain ⟨hvalue, hentries⟩ := List.forall_mem_cons.1 ih
    rw [assignments, assignments]
    apply (fieldOfKey_rebuild hr d entry.1).bind
    rintro f g ⟨hname, htype⟩
    rw [hname, htype]
    apply (hvalue f.type).bind_eq
    intro v
    apply (ihEntries hentries).bind_eq
    intro rest
    exact .ok rfl

/-- The literal of some type and of its rebuilt form: written the same, or refused for the same reason. -/
theorem literal_rebuild (hr : r.Neutral current current') (v : Literal) :
    Unnoticed r current current' v := by
  induction v with
  | integer n =>
    intro t
    have hshape := respelled_shapeError hr t
    rw [literal, literal, trueType_rebuild hr]
    cases htype : t.trueType with
    | base b => exact .refl .same _
    | enum d => exact .ok rfl
    | record kind d | list element | set element | map key value =>
      simp only [htype, Ty.rebuild_record] at hshape ⊢
      exact .error (hshape _)
    | typedef d => exact absurd htype (t.trueType_ne_typedef d)
  | double x | string s =>
    intro t
    have hshape := respelled_shapeError hr t
    rw [literal, literal, trueType_rebuild hr]
    cases htype : t.trueType with
    | base b => exact .refl .same _
    | enum d | record kind d | list element | set element | map key value =>
      simp only [htype, Ty.rebuild_record] at hshape ⊢
      exact .error (hshape _)
    | typedef d => exact absurd htype (t.trueType_ne_typedef d)
  | list items ih =>
    intro t
    have hshape := respelled_shapeError hr t
    rw [literal, literal, trueType_rebuild hr]
    cases htype : t.trueType with
    | base b => exact .refl .same _
    | list element | set element => exact (literals_rebuild ih element).map_eq _
    | enum d | record kind d | map key value =>
      simp only [htype, Ty.rebuild_record] at hshape ⊢
      exact .error (hshape _)
    | typedef d => exact absurd htype (t.trueType_ne_typedef d)
  | map entries ih =>
    intro t
    have hshape := respelled_shapeError hr t
    rw [literal, literal, trueType_rebuild hr]
    cases htype : t.trueType with
    | base b => exact .refl .same _
    | map key value => exact (pairs_rebuild ih key value).map_eq _
    | record kind d =>
      have hname : recordName (r.record (d.map (Ty.rebuild r))) current' = recordName d current :=
        hr.recordName _
      simp only [Ty.rebuild_record, hname]
      exact (assignments_rebuild hr (fun entry hentry => (ih entry hentry).2) d).map_eq _
    | enum d | list element | set element =>
      simp only [htype] at hshape ⊢
      exact .error (hshape _)
    | typedef d => exact absurd htype (t.trueType_ne_typedef d)

/-! ### Declarations -/

/-- A map of types that a program's typespecs and literals do not notice, up to related errors. The
programs are those that refer to the types before and after it. -/
structure Discreet (R : EmitError → EmitError → Prop) (current current' : ProgramInfo)
    (g : Ty → Ty) : Prop where
  typespec (t : Ty) : typespec current' (g t) = typespec current t
  literal (t : Ty) (v : Literal) : Related R Eq (literal current t v) (literal current' (g t) v)

theorem discreet_rebuild (hr : r.Neutral current current') :
    Discreet (Respelled r) current current' (Ty.rebuild r) :=
  ⟨typespec_rebuild hr, fun t v => literal_rebuild hr v t⟩

section Declarations

variable {R : EmitError → EmitError → Prop} {g : Ty → Ty}

theorem fieldEntry_map (hg : Discreet R current current' g) (f : Field) :
    Related R Eq (fieldEntry current f) (fieldEntry current' (f.map g)) := by
  obtain ⟨id, name, type, default, doc⟩ := f
  have hdefault : Related R Eq (defaultValue current ⟨id, name, type, default, doc⟩)
      (defaultValue current' ⟨id, name, g type, default, doc⟩) := by
    cases default with
    | none => exact .ok rfl
    | some v => exact hg.literal type v
  apply hdefault.bind_eq
  intro value
  simp only [FieldOf.map, hg.typespec]
  exact .ok rfl

theorem fieldList_map (hg : Discreet R current current' g) (fields : List Field) :
    Related R Eq (fieldList current fields) (fieldList current' (fields.map (FieldOf.map g))) :=
  (Related.mapM_map fun f _ => fieldEntry_map hg f).map_eq _

theorem recordForm_map (hg : Discreet R current current g) (kind : RecordKind) (d : Record) :
    Related R Eq (recordForm current kind d) (recordForm current kind (d.map g)) := by
  apply (fieldList_map hg d.fields).bind_eq
  intro fields
  exact .ok rfl

theorem exceptionsLine_map (hg : Discreet R current current' g) (exceptions : List Field) :
    Related R Eq (exceptionsLine current exceptions)
      (exceptionsLine current' (exceptions.map (FieldOf.map g))) := by
  simp only [exceptionsLine, List.isEmpty_map]
  split
  · exact .ok rfl
  · apply (fieldList_map hg exceptions).bind_eq
    intro fields
    exact .ok rfl

theorem argument_map (hg : Discreet R current current' g) {f f' : Field} (hid : f'.id = f.id)
    (hname : f'.name = f.name) (htype : f'.type = g f.type) :
    argument current' f' = argument current f := by
  rw [argument, argument, hid, hname, htype, hg.typespec]

theorem argumentList_map (hg : Discreet R current current' g) (args : List Field) :
    argumentList current' (args.map (FieldOf.map g)) = argumentList current args := by
  have hargument : argument current' ∘ FieldOf.map g = argument current :=
    funext fun f => argument_map hg rfl rfl rfl
  rw [argumentList, List.map_map, hargument, argumentList]

theorem methodClause_mapTypes (hg : Discreet R current current' g) (m : Method) :
    Related R Eq (methodClause current m) (methodClause current' (m.mapTypes g)) := by
  apply (exceptionsLine_map hg m.exceptions).bind_eq
  intro exceptions
  simp only [Method.mapTypes, argumentList_map hg, hg.typespec]
  exact .ok rfl

/-- Of the services that a service extends only the name of the first is looked at. -/
theorem baseName_mapBase (change : Method → Method) (base : Option Service) :
    baseName current (Service.mapBase change base) = baseName current base := by
  cases base with
  | none => rfl
  | some s =>
    obtain ⟨name, owner, base, methods, doc⟩ := s
    rfl

theorem serviceForm_mapMethods {change : Method → Method}
    (hchange : ∀ m, Related R Eq (methodClause current m) (methodClause current (change m)))
    (s : Service) :
    Related R Eq (serviceForm current s) (serviceForm current (s.mapMethods change)) := by
  obtain ⟨name, owner, base, methods, doc⟩ := s
  have hmethods : Related R Eq (methods.mapM (methodClause current))
      ((methods.map change).mapM (methodClause current)) :=
    Related.mapM_map fun m _ => hchange m
  apply hmethods.bind_eq
  intro clauses
  simp only [Service.mapMethods, baseName_mapBase]
  exact .ok rfl

theorem constantForm_map (hg : Discreet R current current' g) (c : Constant) :
    Related R Eq (constantForm current c) (constantForm current' { c with type := g c.type }) := by
  apply (hg.literal c.type c.value).bind_eq
  intro value
  exact .ok rfl

theorem form_mapTypes (hg : Discreet R current current g) (d : Definition) :
    Related R Eq (form current d) (form current (d.mapTypes g)) := by
  cases d with
  | typedef d | enum d => exact .ok rfl
  | record kind d => exact recordForm_map hg kind d
  | service s => exact serviceForm_mapMethods (methodClause_mapTypes hg) s
  | constant c => exact constantForm_map hg c

end Declarations

/-! ### Runs -/

/-- A run of a program stops at a declaration: it comes to its end with the declarations before it, and
fails if that one follows. -/
structure StopsAt (p : Program) (before : List Definition) (d : Definition) (e : EmitError) : Prop where
  declared : before ++ [d] <+: p.definitions
  passes : ∃ s, run { p with definitions := before } = .ok () s
  fails : ∃ s, run { p with definitions := before ++ [d] } = .error e s

theorem StopsAt.of_first_error {p : Program} {before after : List Definition} {d : Definition}
    {e : EmitError} (hsplit : p.definitions = before ++ d :: after)
    (hbefore : ∀ x ∈ before, ∃ f, form p.info x = .ok f) (hd : form p.info d = .error e) :
    StopsAt p before d e := by
  obtain ⟨s, s', hfails, hpasses, -⟩ :=
    run_of_first_error { p with definitions := before ++ [d] } rfl hbefore hd
  refine ⟨⟨after, ?_⟩, ⟨s', hpasses⟩, ⟨s, hfails⟩⟩
  rw [hsplit, List.append_assoc, List.singleton_append]

/-- What declarations may become so that a run leaves the same: those without a form may go, the others
keep their stream and their form, or are refused with a related error. -/
structure Unmoved (R : EmitError → EmitError → Prop) (info : ProgramInfo)
    (change : Definition → Option Definition) : Prop where
  dropped {d : Definition} (hd : change d = none) : d.stream? = none
  sameStream {d d' : Definition} (hd : change d = some d') : d'.stream? = d.stream?
  sameForm {d d' : Definition} (hd : change d = some d') : Related R Eq (form info d) (form info d')

namespace Unmoved

variable {R : EmitError → EmitError → Prop} {info : ProgramInfo}
  {change : Definition → Option Definition}

theorem forms_filterMap (h : Unmoved R info change) {ds : List Definition}
    (hforms : ∀ d ∈ ds, ∃ f, form info d = .ok f) :
    ∀ d ∈ ds.filterMap change, ∃ f, form info d = .ok f := by
  intro d' hd'
  obtain ⟨d, hd, hchange⟩ := List.mem_filterMap.1 hd'
  obtain ⟨f, hf⟩ := hforms d hd
  have hform := h.sameForm hchange
  rw [hf] at hform
  generalize form info d' = x at hform ⊢
  cases hform with
  | ok hsame => exact ⟨_, rfl⟩

theorem formBytes_eq (h : Unmoved R info change) {d d' : Definition} (hd : change d = some d') :
    formBytes info d' = formBytes info d := by
  have hform := h.sameForm hd
  unfold formBytes
  generalize form info d = x at hform ⊢
  generalize form info d' = y at hform ⊢
  cases hform with
  | ok hsame => rw [hsame]
  | error he => rfl

theorem bytes_filterMap (h : Unmoved R info change) (stream : Stream) (ds : List Definition) :
    ((ds.filterMap change).filter (Definition.isOn stream)).flatMap (formBytes info) =
      (ds.filter (Definition.isOn stream)).flatMap (formBytes info) := by
  induction ds with
  | nil => rfl
  | cons d ds ih =>
    cases hd : change d with
    | none =>
      have hoff : d.isOn stream = false := by simp [Definition.isOn, h.dropped hd]
      rw [List.filterMap_cons_none hd, ih, List.filter_cons, hoff]
      rfl
    | some d' =>
      have hon : d'.isOn stream = d.isOn stream := by simp [Definition.isOn, h.sameStream hd]
      rw [List.filterMap_cons_some hd, List.filter_cons, List.filter_cons, hon]
      split
      · rw [List.flatMap_cons, List.flatMap_cons, ih, h.formBytes_eq hd]
      · exact ih

theorem run_ok {p : Program} (h : Unmoved R p.info change) {s : Sink} (hrun : run p = .ok () s) :
    ∃ s', run { p with definitions := p.definitions.filterMap change } = .ok () s' ∧
      s'.contents = s.contents := by
  obtain ⟨s', hrun', hgain⟩ := run_of_forms { p with definitions := p.definitions.filterMap change }
    (h.forms_filterMap (forms_of_run hrun))
  refine ⟨s', hrun', funext fun stream => ?_⟩
  rw [hgain, contents_of_run hrun, h.bytes_filterMap]

theorem run_error {p : Program} (h : Unmoved R p.info change) {e : EmitError} {s : Sink}
    (hrun : run p = .error e s) :
    ∃ e' s', run { p with definitions := p.definitions.filterMap change } = .error e' s' ∧
      s'.contents = s.contents ∧ R e e' ∧
      ∃ before d d', change d = some d' ∧ StopsAt p before d e ∧
        StopsAt { p with definitions := p.definitions.filterMap change }
          (before.filterMap change) d' e' := by
  obtain ⟨before, d, after, hsplit, hbefore, hd⟩ := first_error_of_run hrun
  cases hchange : change d with
  | none =>
    rw [form_of_none p.info (h.dropped hchange)] at hd
    cases hd
  | some d' =>
    have hform := h.sameForm hchange
    rw [hd] at hform
    cases hd' : form p.info d' with
    | ok f =>
      rw [hd'] at hform
      cases hform
    | error e' =>
      rw [hd'] at hform
      have he : R e e' := by
        cases hform with
        | error he => exact he
      have hsplit' : p.definitions.filterMap change =
          before.filterMap change ++ d' :: after.filterMap change := by
        rw [hsplit, List.filterMap_append, List.filterMap_cons_some hchange]
      have hbefore' := h.forms_filterMap hbefore
      obtain ⟨s₁, s₂, hfirst, hpasses, hcontents⟩ := run_of_first_error p hsplit hbefore hd
      obtain ⟨s₃, s₄, hfirst', hpasses', hcontents'⟩ :=
        run_of_first_error { p with definitions := p.definitions.filterMap change }
          hsplit' hbefore' hd'
      -- Before the failing declaration both runs leave the same.
      obtain ⟨s₅, hkept, hsame⟩ :=
        run_ok (p := { p with definitions := before }) h hpasses
      have hstart : s₅ = s₄ := by
        have hboth := hkept.symm.trans hpasses'
        injection hboth
      have hend : s₁ = s := by
        have hboth := hfirst.symm.trans hrun
        injection hboth
      refine ⟨e', s₃, hfirst', ?_, he, before, d, d', hchange, .of_first_error hsplit hbefore hd,
        .of_first_error hsplit' hbefore' hd'⟩
      rw [hcontents', ← hstart, hsame, ← hcontents, hend]

theorem run_ok_iff {p : Program} (h : Unmoved R p.info change) :
    (∃ s, run { p with definitions := p.definitions.filterMap change } = .ok () s) ↔
      ∃ s, run p = .ok () s := by
  constructor
  · rintro ⟨s, hrun⟩
    cases hp : run p with
    | ok result s' => exact ⟨s', rfl⟩
    | error e s' =>
      obtain ⟨e', s'', herror, -⟩ := h.run_error hp
      rw [hrun] at herror
      cases herror
  · rintro ⟨s, hrun⟩
    obtain ⟨s', hrun', -⟩ := h.run_ok hrun
    exact ⟨s', hrun'⟩

end Unmoved

end Lisp

end IdlGen
