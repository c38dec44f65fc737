import IdlGen.Proofs.Lisp.Conformance

/-!
# Where a literal is refused

A literal is gone through from left to right: first itself, against the true type that it is given, and
then its parts, each against the type that belongs there. An entry of a map has its key before its value;
of an entry of a record the key is looked up, and its value comes next if there is such a field. The places
on the way stand in a list, and what is reported is what offends in the first of them that does.
-/

namespace IdlGen

/-- A place where a literal may be refused. -/
inductive Place where
  /-- A literal, where one of this type is called for. -/
  | value (type : Ty) (v : Literal)
  /-- A key of a literal of this record. -/
  | key (d : Record) (k : Literal)

namespace Place

/-- What is reported of a place that offends. -/
inductive Offends : Place → EmitError → Prop where
  | void (v : Literal) : Offends (value (.base .void) v) (.unsupportedType "void")
  | unknownField {d : Record} {name : String} (h : ∀ f ∈ d.fields, f.name ≠ name) :
      Offends (key d (.string name)) (.unknownField d.name name)
  | fieldKey {d : Record} {k : Literal} (h : ∀ name, k ≠ .string name) :
      Offends (key d k) (.literalShape "field name" k.kind)
  /-- Whatever its parts, the literal has not the form of the type. -/
  | shape {t : Ty} {v : Literal} (hvoid : t ≠ .base .void) (h : ¬ Conforms t v.emptied) :
      Offends (value t v) (.literalShape t.describe v.kind)

def Passes (place : Place) : Prop := ∀ e, ¬ place.Offends e

end Place

mutual

/-- The places of a literal that is given this type, in the order in which they are come upon. -/
def Literal.places (t : Ty) : Literal → List Place
  | .list items =>
    .value t.trueType (.list items) ::
      match t.trueType with
      | .list element | .set element => itemPlaces element items
      | _ => []
  | .map entries =>
    .value t.trueType (.map entries) ::
      match t.trueType with
      | .map key value => entryPlaces key value entries
      | .record _ d => fieldPlaces d entries
      | _ => []
  | .integer n => [.value t.trueType (.integer n)]
  | .double x => [.value t.trueType (.double x)]
  | .string s => [.value t.trueType (.string s)]

def itemPlaces (element : Ty) : List Literal → List Place
  | [] => []
  | item :: more => item.places element ++ itemPlaces element more

def entryPlaces (key value : Ty) : List (Literal × Literal) → List Place
  | [] => []
  | (k, v) :: more => k.places key ++ v.places value ++ entryPlaces key value more

def fieldPlaces (d : Record) : List (Literal × Literal) → List Place
  | [] => []
  | (k, v) :: more =>
    .key d k ::
      (match k.string?.bind d.fieldNamed? with
        | some f => v.places f.type
        | none => []) ++ fieldPlaces d more

end

theorem itemPlaces_eq_flatMap (element : Ty) (items : List Literal) :
    itemPlaces element items = items.flatMap (Literal.places element) := by
  induction items with
  | nil => rfl
  | cons item items ih => rw [itemPlaces, ih, List.flatMap_cons]

theorem entryPlaces_eq_flatMap (key value : Ty) (entries : List (Literal × Literal)) :
    entryPlaces key value entries =
      entries.flatMap fun entry => entry.1.places key ++ entry.2.places value := by
  induction entries with
  | nil => rfl
  | cons entry entries ih => rw [entryPlaces, ih, List.flatMap_cons]

/-- The places of an entry of a record literal. -/
def assignmentPlaces (d : Record) (entry : Literal × Literal) : List Place :=
  .key d entry.1 ::
    match entry.1.string?.bind d.fieldNamed? with
    | some f => entry.2.places f.type
    | none => []

theorem fieldPlaces_eq_flatMap (d : Record) (entries : List (Literal × Literal)) :
    fieldPlaces d entries = entries.flatMap (assignmentPlaces d) := by
  induction entries with
  | nil => rfl
  | cons entry entries ih => rw [fieldPlaces, ih, List.flatMap_cons, assignmentPlaces, List.cons_append]

theorem Place.Offends.unique {place : Place} {e e' : EmitError} (h : place.Offends e)
    (h' : place.Offends e') : e = e' := by
  cases h with
  | void v =>
    cases h' with
    | void => rfl
    | shape hvoid => exact absurd rfl hvoid
  | unknownField h =>
    cases h' with
    | unknownField => rfl
    | fieldKey hkey => exact absurd rfl (hkey _)
  | fieldKey hkey =>
    cases h' with
    | unknownField => exact absurd rfl (hkey _)
    | fieldKey => rfl
  | shape hvoid h =>
    cases h' with
    | void => exact absurd rfl hvoid
    | shape => rfl

namespace Lisp

variable {current : ProgramInfo}

/-- Writing a literal looks at its places, one after the other. -/
def Visits {α : Type} : List Place → Except EmitError α → Prop := Vets Place.Passes Place.Offends

theorem passes_value {t : Ty} {v : Literal} (h : Conforms t v.emptied) : (Place.value t v).Passes := by
  intro e hoffends
  cases hoffends with
  | void v => exact (FirstViolation.void v.emptied).not_conforms h
  | shape hvoid hnot => exact hnot h

/-- If the form of a literal is right, its parts are looked at, and otherwise it is refused. -/
theorem visits_of_parts {t : Ty} {v : Literal} {parts : List Place}
    (h : Conforms t.trueType v.emptied → Visits parts (literal current t v)) :
    Visits (.value t.trueType v :: parts) (literal current t v) := by
  by_cases hform : Conforms t.trueType v.emptied
  · exact (h hform).behind (passes_value hform)
  · have hrefused : ∀ e, FirstViolation t.trueType v e → (Place.value t.trueType v).Offends e →
        Visits (.value t.trueType v :: parts) (literal current t v) := by
      intro e hviolation hoffends
      rw [literal_of_firstViolation hviolation.of_trueType]
      have hnone : ∀ q ∈ ([] : List Place), q.Passes := fun _ hq => absurd hq List.not_mem_nil
      exact .fail hnone hoffends parts
    by_cases hvoid : t.trueType = .base .void
    · rw [hvoid] at hrefused ⊢
      exact hrefused _ (.void v) (.void v)
    · exact hrefused _ (.shape t.trueType_trueType hvoid hform) (.shape hvoid hform)

theorem visits_pair {key value : Ty} {entry : Literal × Literal}
    (hkey : Visits (entry.1.places key) (literal current key entry.1))
    (hvalue : Visits (entry.2.places value) (literal current value entry.2)) :
    Visits (entry.1.places key ++ entry.2.places value) (pair current key value entry) := by
  apply hkey.bind
  intro k
  apply hvalue.andThen
  intro v
  exact .nothing _

theorem visits_assignment {d : Record} {entry : Literal × Literal}
    (hvalue : ∀ t, Visits (entry.2.places t) (literal current t entry.2)) :
    Visits (assignmentPlaces d entry) (assignment current d entry) := by
  obtain ⟨key, value⟩ := entry
  rw [assignmentPlaces, assignment]
  by_cases hkey : ∃ name, key = .string name
  case neg =>
    have hkey := not_exists.1 hkey
    have hnone : key.string? = none := by
      cases key with
      | string name => exact absurd rfl (hkey name)
      | integer n | double x | list items | map entries => rfl
    rw [fieldOfKey_other hkey, hnone]
    exact .unmet (.fieldKey hkey)
  case pos =>
    obtain ⟨name, rfl⟩ := hkey
    rw [Literal.string?, Option.bind_some]
    cases hname : d.fieldNamed? name with
    | none =>
      rw [fieldOfKey_unknown hname]
      have hfields : ∀ f ∈ d.fields, f.name ≠ name := by
        simpa [RecordOf.fieldNamed?] using hname
      exact .unmet (.unknownField hfields)
    | some f =>
      rw [fieldOfKey_string hname]
      have hknown : (Place.key d (.string name)).Passes := by
        intro e hoffends
        cases hoffends with
        | unknownField h =>
          obtain ⟨hsame, hmem⟩ := And.intro (List.find?_some hname) (List.mem_of_find?_eq_some hname)
          exact h f hmem (by simpa using hsame)
        | fieldKey h => exact h name rfl
      apply Vets.behind hknown
      apply (hvalue f.type).andThen
      intro v
      exact .nothing _

/-- A literal without parts is refused for its form or not at all. -/
theorem visits_leaf (t : Ty) {v : Literal} (hv : v.emptied = v) :
    Visits [.value t.trueType v] (literal current t v) := by
  apply visits_of_parts
  rw [hv]
  intro h
  obtain ⟨text, hwritten⟩ := literal_of_conforms current h.of_trueType
  rw [hwritten]
  exact .nothing text

/-- To write a literal is to go through its places. -/
theorem visits_literal (current : ProgramInfo) (t : Ty) (v : Literal) :
    Visits (v.places t) (literal current t v) := by
  induction v generalizing t with
  | integer n | double x | string s => exact visits_leaf t rfl
  | list items ih =>
    rw [Literal.places]
    apply visits_of_parts
    rw [literal]
    cases htype : t.trueType with
    | list element | set element =>
      intro h
      dsimp only
      rw [itemPlaces_eq_flatMap, literals_eq_mapM]
      exact (Vets.mapM fun item hitem => ih item hitem element).map _
    | base b | enum d | record kind d | map key value =>
      intro h
      cases h
    | typedef d => exact absurd htype (t.trueType_ne_typedef d)
  | map entries ih =>
    rw [Literal.places]
    apply visits_of_parts
    rw [literal]
    cases htype : t.trueType with
    | map key value =>
      intro h
      dsimp only
      rw [entryPlaces_eq_flatMap, pairs_eq_mapM]
      exact (Vets.mapM fun entry hentry =>
        visits_pair ((ih entry hentry).1 key) ((ih entry hentry).2 value)).map _
    | record kind d =>
      intro h
      dsimp only
      rw [fieldPlaces_eq_flatMap, assignments_eq_mapM]
      exact (Vets.mapM fun entry hentry => visits_assignment (ih entry hentry).2).map _
    | base b | enum d | list element | set element =>
      intro h
      cases h
    | typedef d => exact absurd htype (t.trueType_ne_typedef d)

/-- A literal is refused exactly if some place offends, with what is wrong in the first that does, and
written if none does. -/
theorem literal_error_iff (current : ProgramInfo) (t : Ty) (v : Literal) :
    (∀ e, literal current t v = .error e ↔ ∃ before place after,
      v.places t = before ++ place :: after ∧ (∀ other ∈ before, other.Passes) ∧ place.Offends e) ∧
    ((∃ text, literal current t v = .ok text) ↔ ∀ place ∈ v.places t, place.Passes) := by
  have hvisits := visits_literal current t v
  constructor
  · intro e
    constructor
    · intro hrefused
      rw [hrefused] at hvisits
      exact hvisits.bad_of_error
    · rintro ⟨before, place, after, hsplit, hbefore, hoffends⟩
      rw [hsplit] at hvisits
      obtain ⟨e', hrefused, hoffends'⟩ := hvisits.error_of_first hbefore (fun h => h e hoffends)
        fun _ e hbad h => h e hbad
      rw [hrefused, hoffends.unique hoffends']
  · constructor
    · rintro ⟨text, hwritten⟩
      rw [hwritten] at hvisits
      exact hvisits.good_of_ok
    · intro hall
      cases hwritten : literal current t v with
      | ok text => exact ⟨text, rfl⟩
      | error e =>
        rw [hwritten] at hvisits
        obtain ⟨before, place, after, hsplit, -, hoffends⟩ := hvisits.bad_of_error
        exact absurd hoffends (hall place (hsplit ▸ List.mem_append_right _ List.mem_cons_self) e)

/-- The value of the second entry is of the wrong form, and the key of the third is not looked at. -/
example (current : ProgramInfo) :
    literal current
      (.record .struct { name := "Point", fields := [{ id := 1, name := "x", type := .base .i32 }] })
      (.map [(.string "x", .integer 1), (.string "x", .list []), (.string "y", .integer 2)]) =
      .error (.literalShape "i32" "list") := rfl

end Lisp

end IdlGen
