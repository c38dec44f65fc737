import IdlGen.Proofs.Lisp.Conformance
import IdlGen.Proofs.Lisp.Drafts
import IdlGen.Proofs.Lisp.LiteralReading
import IdlGen.Proofs.Lisp.Streams

/-!
# The references in a form

A form qualifies the names of the records that its declaration declares or uses, at any depth of a type,
and the name of a base service, and no other name: it has a draft with these references only. Whether a
declaration has a form does not depend on the current program at all.
-/

namespace IdlGen

namespace Lisp

/-- The types by which the form of a declaration writes typespecs and literals. -/
inductive Shows : Definition → Ty → Prop where
  | field {kind : RecordKind} {d : Record} {f : Field} : f ∈ d.fields → Shows (.record kind d) f.type
  | argument {s : Service} {m : Method} {f : Field} :
      m ∈ s.methods → f ∈ m.args → Shows (.service s) f.type
  | result {s : Service} {m : Method} : m ∈ s.methods → Shows (.service s) m.returns
  | exception {s : Service} {m : Method} {f : Field} :
      m ∈ s.methods → f ∈ m.exceptions → Shows (.service s) f.type
  | constant (c : Constant) : Shows (.constant c) c.type

/-- A declaration brings a reference into its form. -/
inductive Refers : Definition → Reference → Prop where
  | declared (kind : RecordKind) (d : Record) : Refers (.record kind d) (recordReference d)
  | shown {d : Definition} {t : Ty} {kind : RecordKind} {e : Record} :
      Shows d t → t.Mentions (.record kind e) → Refers d (recordReference e)
  | base {s base : Service} : s.base = some base → Refers (.service s) (serviceReference base)

end Lisp

open Lisp

/-- The references to the records in a type are all such. -/
def Ty.RefersTo (P : Reference → Prop) (t : Ty) : Prop :=
  ∀ kind d, t.Mentions (.record kind d) → P (recordReference d)

theorem Ty.RefersTo.of_mentions {P : Reference → Prop} {t u : Ty} (h : t.RefersTo P)
    (hmentions : ∀ {v : Ty}, u.Mentions v → t.Mentions v) : u.RefersTo P :=
  fun kind d hd => h kind d (hmentions hd)

namespace Lisp

variable {P : Reference → Prop}

theorem open_recordName {kind : RecordKind} {d : Record} (hd : (Ty.record kind d).RefersTo P) :
    OpenText P fun current => recordName d current :=
  .reference (hd kind d (.self _))

theorem open_typespec {t : Ty} (ht : t.RefersTo P) : OpenText P fun current => typespec current t := by
  induction t with
  | base b => exact .fixed b.name
  | enum d => exact .fixed ("(enum " ++ symbol d.name ++ ")")
  | record kind d =>
    exact OpenText.fixed "(struct " |>.append (open_recordName ht).symbol |>.append (.fixed ")")
  | list element ih =>
    exact OpenText.fixed "(list " |>.append (ih (ht.of_mentions .list)) |>.append (.fixed ")")
  | set element ih =>
    exact OpenText.fixed "(set " |>.append (ih (ht.of_mentions .set)) |>.append (.fixed ")")
  | map key value ihKey ihValue =>
    have hkey := ihKey (ht.of_mentions .key)
    have hvalue := ihValue (ht.of_mentions .value)
    exact OpenText.fixed "(map " |>.append hkey |>.append (.fixed " ") |>.append hvalue
      |>.append (.fixed ")")
  | typedef d ih => exact ih (ht.of_mentions .typedef)

/-! ### Literals -/

/-- What has to be shown of a literal: its layout is open, whatever the type. -/
def OpenLiteral (P : Reference → Prop) (v : Literal) : Prop :=
  ∀ t : Ty, t.RefersTo P → Uniform (OpenLayout P) fun current => literal current t v

theorem open_pair {key value : Ty} (hkey : key.RefersTo P) (hvalue : value.RefersTo P)
    {entry : Literal × Literal} (ih : OpenLiteral P entry.1 ∧ OpenLiteral P entry.2) :
    Uniform (OpenLayout P) fun current => pair current key value entry := by
  refine (ih.1 key hkey).bind fun k hk => (ih.2 value hvalue).bind fun v hv => ?_
  exact .ok (fun _ => rfl) <| OpenLayout.fixed (.text "(cl:cons ") |>.append hk
    |>.append (.fixed (.text " ")) |>.append hv |>.append (.fixed (.text ")"))

theorem open_assignment {kind : RecordKind} {d : Record} (hd : (Ty.record kind d).RefersTo P)
    {entry : Literal × Literal} (ih : OpenLiteral P entry.2) :
    Uniform (OpenLayout P) fun current => assignment current d entry := by
  unfold assignment
  -- Which field a key names is the same in every program.
  cases hfield : fieldOfKey d entry.1 with
  | error e => exact .error e fun _ => rfl
  | ok f =>
    have hmem : f ∈ d.fields := List.mem_of_find?_eq_some (fieldOfKey_eq_ok hfield).2
    refine (ih f.type (hd.of_mentions (.field hmem))).bind fun v hv => ?_
    exact .ok (fun _ => rfl) ((OpenLayout.fixed (.text (":" ++ f.name ++ " "))).append hv)

theorem open_literal (v : Literal) : OpenLiteral P v := by
  induction v with
  | integer n | double x | string s =>
    intro t ht
    simp only [literal]
    exact .fixed _
  | list items ih =>
    intro t ht
    have htrue := ht.of_mentions Ty.mentions_of_trueType
    simp only [literal]
    cases htype : t.trueType with
    | list element | set element =>
      rw [htype] at htrue
      have helement : element.RefersTo P := htrue.of_mentions (by first | exact .list | exact .set)
      simp only [literals_eq_mapM]
      exact (Uniform.mapM fun item hitem => ih item hitem element helement).map fun parts hparts =>
        hparts.composite (.fixed _)
    | base b | enum d | record kind d | map key value | typedef d => exact .fixed _
  | map entries ih =>
    intro t ht
    have htrue := ht.of_mentions Ty.mentions_of_trueType
    simp only [literal]
    cases htype : t.trueType with
    | map key value =>
      rw [htype] at htrue
      simp only [pairs_eq_mapM]
      exact (Uniform.mapM fun entry hentry => open_pair (htrue.of_mentions .key)
        (htrue.of_mentions .value) (ih entry hentry)).map fun parts hparts => hparts.composite (.fixed _)
    | record kind d =>
      rw [htype] at htrue
      simp only [assignments_eq_mapM]
      exact (Uniform.mapM fun entry hentry => open_assignment htrue (ih entry hentry).2).map
        fun parts hparts =>
          hparts.composite ((OpenText.fixed (constructor kind ++ " '")).append (open_recordName htrue))
    | base b | enum d | list element | set element | typedef d => exact .fixed _

/-! ### Fields and methods -/

theorem open_fieldEntry {f : Field} (hf : f.type.RefersTo P) :
    Uniform (OpenLayout P) fun current => fieldEntry current f := by
  have hdefault : Uniform (OpenLayout P) fun current => defaultValue current f := by
    unfold defaultValue
    cases f.default with
    | none => exact .fixed _
    | some v => exact open_literal v f.type hf
  refine hdefault.bind fun value hvalue => .ok (fun _ => rfl) ?_
  have htype : OpenText P fun current =>
      " :type " ++ typespec current f.type ++ " :id " ++ integerText f.id.toInt :=
    OpenText.fixed " :type " |>.append (open_typespec hf) |>.append (.fixed " :id ")
      |>.append (.fixed (integerText f.id.toInt))
  exact OpenLayout.fixed _ |>.append hvalue |>.append (.text htype) |>.append (.fixed (fieldDoc f.doc))
    |>.append (.fixed (.text ")"))

theorem open_fieldList {fields : List Field} (hfields : ∀ f ∈ fields, f.type.RefersTo P) :
    Uniform (OpenLayout P) fun current => fieldList current fields :=
  (Uniform.mapM fun f hf => open_fieldEntry (hfields f hf)).map fun _ hentries => hentries.aligned

theorem open_argumentList {args : List Field} (hargs : ∀ f ∈ args, f.type.RefersTo P) :
    OpenText P fun current => argumentList current args := by
  have hargument : ∀ f ∈ args, OpenText P fun current => argument current f := by
    intro f hf
    exact OpenText.fixed ("(" ++ symbol f.name ++ " ") |>.append (open_typespec (hargs f hf))
      |>.append (.fixed " ") |>.append (.fixed (integerText f.id.toInt)) |>.append (.fixed ")")
  exact OpenText.fixed "(" |>.append (.intercalate hargument) |>.append (.fixed ")")

theorem open_exceptionsLine {exceptions : List Field} (h : ∀ f ∈ exceptions, f.type.RefersTo P) :
    Uniform (OpenLayout P) fun current => exceptionsLine current exceptions := by
  unfold exceptionsLine
  split
  · exact .fixed _
  · refine (open_fieldList h).bind fun fields hfields => .ok (fun _ => rfl) ?_
    exact (OpenLayout.fixed _).append hfields

theorem open_methodClause {m : Method} (hargs : ∀ f ∈ m.args, f.type.RefersTo P)
    (hreturns : m.returns.RefersTo P) (hexceptions : ∀ f ∈ m.exceptions, f.type.RefersTo P) :
    Uniform (OpenLayout P) fun current => methodClause current m := by
  refine (open_exceptionsLine hexceptions).bind fun exceptions hopen => .ok (fun _ => rfl) ?_
  have hsignature : OpenText P fun current => "(:method " ++ symbol m.name ++ " (" ++
      argumentList current m.args ++ " " ++ typespec current m.returns ++ ")" :=
    OpenText.fixed ("(:method " ++ symbol m.name ++ " (") |>.append (open_argumentList hargs)
      |>.append (.fixed " ") |>.append (open_typespec hreturns) |>.append (.fixed ")")
  exact OpenLayout.text hsignature |>.append hopen |>.append (.fixed (onewayLine m.oneway))
    |>.append (.fixed (.text ")"))

/-! ### Declarations -/

theorem open_recordForm {kind : RecordKind} {d : Record} (hname : P (recordReference d))
    (hfields : ∀ f ∈ d.fields, f.type.RefersTo P) :
    Uniform (OpenLayout P) fun current => recordForm current kind d := by
  refine (open_fieldList hfields).bind fun fields hopen => .ok (fun _ => rfl) ?_
  have hhead : OpenText P fun current => "(" ++ declarator kind ++ " " ++ symbol (recordName d current) :=
    (OpenText.fixed ("(" ++ declarator kind ++ " ")).append (OpenText.reference hname).symbol
  exact OpenLayout.text hhead |>.append (OpenLayout.fixed _ |>.append hopen).indent
    |>.append (.fixed (.text ")"))

theorem open_serviceForm {s : Service} (hbase : ∀ base, s.base = some base → P (serviceReference base))
    (hmethods : ∀ m ∈ s.methods, Uniform (OpenLayout P) fun current => methodClause current m) :
    Uniform (OpenLayout P) fun current => serviceForm current s := by
  refine (Uniform.mapM hmethods).bind fun methods hopen => .ok (fun _ => rfl) ?_
  have hname : OpenText P fun current => baseName current s.base := by
    unfold baseName
    cases hs : s.base with
    | none => exact .fixed "nil"
    | some base => exact (OpenText.reference (hbase base hs)).symbol
  have hhead : OpenText P fun current =>
      "(thrift:def-service " ++ symbol s.name ++ " " ++ baseName current s.base :=
    (OpenText.fixed ("(thrift:def-service " ++ symbol s.name ++ " ")).append hname
  exact OpenLayout.text hhead |>.append (OpenLayout.fixed _ |>.append hopen.each_line).indent
    |>.append (.fixed (.text ")"))

theorem open_constantForm {c : Constant} (hc : c.type.RefersTo P) :
    Uniform (OpenLayout P) fun current => constantForm current c := by
  refine (open_literal c.value c.type hc).bind fun value hopen => .ok (fun _ => rfl) ?_
  exact OpenLayout.fixed _ |>.append hopen |>.append (.fixed (.text ")"))

/-- Every form is open, with no references but those of its declaration. -/
theorem open_form (d : Definition) : Uniform (OpenLayout (Refers d)) fun current => form current d := by
  have hshows : ∀ t, Shows d t → t.RefersTo (Refers d) := fun t ht kind e he => .shown ht he
  cases d with
  | typedef d | enum d => exact .fixed _
  | record kind d => exact open_recordForm (.declared kind d) fun f hf => hshows _ (.field hf)
  | service s =>
    refine open_serviceForm (fun base hbase => .base hbase) fun m hm => ?_
    exact open_methodClause (fun f hf => hshows _ (.argument hm hf)) (hshows _ (.result hm))
      fun f hf => hshows _ (.exception hm hf)
  | constant c => exact open_constantForm (hshows _ (.constant c))

end Lisp

end IdlGen
