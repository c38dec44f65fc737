import IdlGen.Lisp.Literal
import IdlGen.Proofs.Except
import IdlGen.Proofs.Schema.Induction

/-!
# Which literals can be written

A literal conforms to a type if it has the form that the type calls for, and so have all its parts. A
conforming literal is written; of any other the first violation is reported, in the order of the text.
-/

namespace IdlGen

/-- A literal has the form that a type calls for, and so have its parts. -/
inductive Conforms : Ty → Literal → Prop where
  | string (s : String) : Conforms (.base .string) (.string s)
  | bool (n : Int64) : Conforms (.base .bool) (.integer n)
  | integer {b : BaseType} (hb : b.isIntegral) (n : Int64) : Conforms (.base b) (.integer n)
  | wholeDouble (n : Int64) : Conforms (.base .double) (.integer n)
  | double {x : Binary64} (hx : x.isFinite) : Conforms (.base .double) (.double x)
  | enum (d : EnumDef) (n : Int64) : Conforms (.enum d) (.integer n)
  | list {element : Ty} {items : List Literal} (hitems : ∀ item ∈ items, Conforms element item) :
      Conforms (.list element) (.list items)
  | set {element : Ty} {items : List Literal} (hitems : ∀ item ∈ items, Conforms element item) :
      Conforms (.set element) (.list items)
  | map {key value : Ty} {entries : List (Literal × Literal)}
      (hkeys : ∀ entry ∈ entries, Conforms key entry.1)
      (hvalues : ∀ entry ∈ entries, Conforms value entry.2) : Conforms (.map key value) (.map entries)
  /-- Every key names a field, the first of that name, and the value conforms to its type. -/
  | record {kind : RecordKind} {d : Record} {entries : List (Literal × Literal)}
      (hnames : ∀ entry ∈ entries, ∃ name f, entry.1 = .string name ∧ d.fieldNamed? name = some f)
      (hvalues : ∀ entry ∈ entries, ∀ name f, entry.1 = .string name →
        d.fieldNamed? name = some f → Conforms f.type entry.2) :
      Conforms (.record kind d) (.map entries)
  | typedef {d : Typedef} {v : Literal} (h : Conforms d.target v) : Conforms (.typedef d) v

namespace Literal

/-- The literal without its parts. -/
def emptied : Literal → Literal
  | list _ => list []
  | map _ => map []
  | v => v

end Literal

/-- What is wrong with a literal, seen from the left and with keys before values. -/
inductive FirstViolation : Ty → Literal → EmitError → Prop where
  /-- Nothing can be of type void. -/
  | void (v : Literal) : FirstViolation (.base .void) v (.unsupportedType "void")
  /-- Whatever its parts, the literal has not the form of the type. -/
  | shape {t : Ty} {v : Literal} (htype : t.trueType = t) (hvoid : t ≠ .base .void)
      (h : ¬ Conforms t v.emptied) : FirstViolation t v (.literalShape t.describe v.kind)
  | item {element : Ty} {before after : List Literal} {item : Literal} {e : EmitError}
      (hbefore : Conforms (.list element) (.list before)) (h : FirstViolation element item e) :
      FirstViolation (.list element) (.list (before ++ item :: after)) e
  | member {element : Ty} {before after : List Literal} {item : Literal} {e : EmitError}
      (hbefore : Conforms (.set element) (.list before)) (h : FirstViolation element item e) :
      FirstViolation (.set element) (.list (before ++ item :: after)) e
  | key {key value : Ty} {before after : List (Literal × Literal)} {k v : Literal} {e : EmitError}
      (hbefore : Conforms (.map key value) (.map before)) (h : FirstViolation key k e) :
      FirstViolation (.map key value) (.map (before ++ (k, v) :: after)) e
  | value {key value : Ty} {before after : List (Literal × Literal)} {k v : Literal} {e : EmitError}
      (hbefore : Conforms (.map key value) (.map before)) (hkey : Conforms key k)
      (h : FirstViolation value v e) :
      FirstViolation (.map key value) (.map (before ++ (k, v) :: after)) e
  /-- The fields of a record are named by strings. -/
  | fieldKey {kind : RecordKind} {d : Record} {before after : List (Literal × Literal)}
      {k v : Literal} (hbefore : Conforms (.record kind d) (.map before))
      (hkey : ∀ name, k ≠ .string name) :
      FirstViolation (.record kind d) (.map (before ++ (k, v) :: after))
        (.literalShape "field name" k.kind)
  | unknownField {kind : RecordKind} {d : Record} {before after : List (Literal × Literal)}
      {name : String} {v : Literal} (hbefore : Conforms (.record kind d) (.map before))
      (hname : d.fieldNamed? name = none) :
      FirstViolation (.record kind d) (.map (before ++ (.string name, v) :: after))
        (.unknownField d.name name)
  | fieldValue {kind : RecordKind} {d : Record} {before after : List (Literal × Literal)}
      {name : String} {f : Field} {v : Literal} {e : EmitError}
      (hbefore : Conforms (.record kind d) (.map before)) (hname : d.fieldNamed? name = some f)
      (h : FirstViolation f.type v e) :
      FirstViolation (.record kind d) (.map (before ++ (.string name, v) :: after)) e
  | typedef {d : Typedef} {v : Literal} {e : EmitError} (h : FirstViolation d.target v e) :
      FirstViolation (.typedef d) v e

/-! ### Behind typedefs -/

theorem Conforms.of_trueType {t : Ty} {v : Literal} (h : Conforms t.trueType v) : Conforms t v := by
  induction t with
  | base b | enum d | record kind d | list element | set element | map key value => exact h
  | typedef d ih =>
    rw [Ty.trueType_typedef] at h
    exact .typedef (ih h)

theorem FirstViolation.of_trueType {t : Ty} {v : Literal} {e : EmitError}
    (h : FirstViolation t.trueType v e) : FirstViolation t v e := by
  induction t with
  | base b | enum d | record kind d | list element | set element | map key value => exact h
  | typedef d ih =>
    rw [Ty.trueType_typedef] at h
    exact .typedef (ih h)

/-! ### A violation, or none -/

/-- Parts do not mend the form of a literal. -/
theorem Conforms.emptied {t : Ty} {v : Literal} (h : Conforms t v) : Conforms t v.emptied := by
  induction h with
  | string s => exact .string s
  | bool n => exact .bool n
  | integer hb n => exact .integer hb n
  | wholeDouble n => exact .wholeDouble n
  | double hx => exact .double hx
  | enum d n => exact .enum d n
  | list => exact .list (fun _ h => absurd h List.not_mem_nil)
  | set => exact .set (fun _ h => absurd h List.not_mem_nil)
  | map => exact .map (fun _ h => absurd h List.not_mem_nil) (fun _ h => absurd h List.not_mem_nil)
  | record =>
    exact .record (fun _ h => absurd h List.not_mem_nil) (fun _ h => absurd h List.not_mem_nil)
  | typedef h ih => exact .typedef ih

theorem FirstViolation.not_conforms {t : Ty} {v : Literal} {e : EmitError}
    (h : FirstViolation t v e) : ¬ Conforms t v := by
  -- The violating part is among the parts, all of which would have to conform.
  have hamong : ∀ {α : Type} (before after : List α) (a : α), a ∈ before ++ a :: after :=
    fun before after a => List.mem_append_right before List.mem_cons_self
  induction h with
  | void v =>
    intro hv
    cases hv with
    | integer hb n => cases hb
  | shape htype hvoid h => exact fun hv => h hv.emptied
  | item hbefore h ih =>
    intro hv
    cases hv with
    | list hitems => exact ih (hitems _ (hamong _ _ _))
  | member hbefore h ih =>
    intro hv
    cases hv with
    | set hitems => exact ih (hitems _ (hamong _ _ _))
  | key hbefore h ih =>
    intro hv
    cases hv with
    | map hkeys hvalues => exact ih (hkeys _ (hamong _ _ _))
  | value hbefore hkey h ih =>
    intro hv
    cases hv with
    | map hkeys hvalues => exact ih (hvalues _ (hamong _ _ _))
  | fieldKey hbefore hkey =>
    intro hv
    cases hv with
    | record hnames hvalues =>
      obtain ⟨name, f, hname, -⟩ := hnames _ (hamong _ _ _)
      exact hkey name hname
  | unknownField hbefore hunknown =>
    intro hv
    cases hv with
    | record hnames hvalues =>
      obtain ⟨name, f, hname, hknown⟩ := hnames _ (hamong _ _ _)
      obtain rfl := Literal.string.inj hname
      rw [hunknown] at hknown
      cases hknown
  | fieldValue hbefore hname h ih =>
    intro hv
    cases hv with
    | record hnames hvalues => exact ih (hvalues _ (hamong _ _ _) _ _ rfl hname)
  | typedef h ih =>
    intro hv
    cases hv with
    | typedef hv => exact ih hv

/-- Only void is called unsupported. -/
theorem FirstViolation.unsupportedType_eq {t : Ty} {v : Literal} {name : String}
    (h : FirstViolation t v (.unsupportedType name)) : name = BaseType.void.name := by
  generalize he : EmitError.unsupportedType name = e at h
  induction h with
  | void v => exact EmitError.unsupportedType.inj he
  | shape | fieldKey | unknownField => cases he
  | item _ _ ih | member _ _ ih | key _ _ ih | value _ _ _ ih | fieldValue _ _ _ ih
  | typedef _ ih => exact ih he

namespace Lisp

variable {current : ProgramInfo}

/-- Writing a literal checks it. -/
def Vetted (current : ProgramInfo) (t : Ty) (v : Literal) : Prop :=
  Vets (Conforms t) (FirstViolation t) [v] (literal current t v)

theorem Vetted.cases {t : Ty} {v : Literal} (h : Vetted current t v) :
    (∃ text, literal current t v = .ok text ∧ Conforms t v) ∨
      ∃ e, literal current t v = .error e ∧ FirstViolation t v e := by
  unfold Vetted at h
  generalize literal current t v = x at h ⊢
  cases x with
  | ok text => exact .inl ⟨text, rfl, h.good_of_met⟩
  | error e => exact .inr ⟨e, rfl, h.bad_of_unmet⟩

/-- A literal whose form is wrong for the type is refused as such. -/
theorem vets_shapeError {α : Type} {t : Ty} {v : Literal} (htype : t.trueType = t)
    (hvoid : t ≠ .base .void) (h : ¬ Conforms t v.emptied) :
    Vets (Conforms t) (FirstViolation t) [v] (.error (shapeError t v) : Except EmitError α) :=
  .unmet (.shape htype hvoid h)

theorem vets_baseText (b : BaseType) (v : Literal) :
    Vets (Conforms (.base b)) (FirstViolation (.base b)) [v] (baseText b v) := by
  unfold baseText
  split
  case h_1 => exact .unmet (.void _)
  case h_2 s => exact .met (.string s) _
  case h_3 n => exact .met (.bool n) _
  case h_4 n | h_5 n | h_6 n | h_7 n => exact .met (.integer rfl n) _
  case h_8 n => exact .met (.wholeDouble n) _
  case h_9 x =>
    split
    case isTrue hx => exact .met (.double hx) _
    case isFalse hx =>
      have hwrong : ¬ Conforms (.base .double) (.double x) := by
        intro hv
        cases hv with
        | double hfinite => exact hx hfinite
      exact vets_shapeError rfl nofun hwrong
  case h_10 =>
    rename_i hvoid hstring hbool hbyte hi16 hi32 hi64 hwhole hdouble
    apply vets_shapeError rfl
    · rintro ⟨⟩
      exact hvoid rfl
    · intro hv
      cases v with
      | string s =>
        cases hv
        exact hstring s rfl rfl
      | integer n =>
        cases hv with
        | bool => exact hbool n rfl rfl
        | wholeDouble => exact hwhole n rfl rfl
        | integer hb =>
          cases b with
          | void | bool | double | string => cases hb
          | byte => exact hbyte n rfl rfl
          | i16 => exact hi16 n rfl rfl
          | i32 => exact hi32 n rfl rfl
          | i64 => exact hi64 n rfl rfl
      | double x =>
        cases hv
        exact hdouble x rfl rfl
      | list items | map entries => cases hv

/-! ### Items -/

theorem literals_eq_mapM (element : Ty) (items : List Literal) :
    literals current element items = items.mapM (literal current element) := by
  induction items with
  | nil => rfl
  | cons item items ih => rw [literals, List.mapM_cons, ih]

theorem vets_literals {element : Ty} {items : List Literal}
    (h : ∀ item ∈ items, Vetted current element item) :
    Vets (Conforms element) (FirstViolation element) items (literals current element items) := by
  have hall := Vets.mapM h
  rwa [List.flatMap_singleton', ← literals_eq_mapM] at hall

/-! ### Entries -/

/-- Behind entries that conform, the entry is the first that does not. -/
def WrongEntry (t : Ty) (entry : Literal × Literal) (e : EmitError) : Prop :=
  ∀ before after, Conforms t (.map before) → FirstViolation t (.map (before ++ entry :: after)) e

/-- The literal of one entry of a map. -/
def pair (current : ProgramInfo) (keyType valueType : Ty) (entry : Literal × Literal) :
    Except EmitError Layout := do
  let k ← literal current keyType entry.1
  let v ← literal current valueType entry.2
  pure (Layout.text "(cl:cons " ++ k ++ Layout.text " " ++ v ++ Layout.text ")")

theorem pairs_eq_mapM (key value : Ty) (entries : List (Literal × Literal)) :
    pairs current key value entries = entries.mapM (pair current key value) := by
  induction entries with
  | nil => rfl
  | cons entry entries ih =>
    rw [pairs, List.mapM_cons, pair, ih]
    simp only [bind_assoc, pure_bind]

theorem vets_pair {key value : Ty} {entry : Literal × Literal}
    (hkey : Vetted current key entry.1) (hvalue : Vetted current value entry.2) :
    Vets (fun entry => Conforms key entry.1 ∧ Conforms value entry.2) (WrongEntry (.map key value))
      [entry] (pair current key value entry) := by
  obtain ⟨k, v⟩ := entry
  unfold pair
  rcases hkey.cases with ⟨keyText, hk, hkeyConforms⟩ | ⟨e, hk, hviolation⟩
  case inr =>
    rw [hk]
    exact .unmet fun before after hbefore => .key hbefore hviolation
  case inl =>
    rcases hvalue.cases with ⟨valueText, hv, hvalueConforms⟩ | ⟨e, hv, hviolation⟩
    · rw [hk, hv]
      exact .met ⟨hkeyConforms, hvalueConforms⟩ _
    · rw [hk, hv]
      exact .unmet fun before after hbefore => .value hbefore hkeyConforms hviolation

theorem conforms_map {key value : Ty} {entries : List (Literal × Literal)}
    (h : ∀ entry ∈ entries, Conforms key entry.1 ∧ Conforms value entry.2) :
    Conforms (.map key value) (.map entries) :=
  .map (fun entry hentry => (h entry hentry).1) fun entry hentry => (h entry hentry).2

/-- The literal of one entry of a record. -/
def assignment (current : ProgramInfo) (d : Record) (entry : Literal × Literal) :
    Except EmitError Layout := do
  let field ← fieldOfKey d entry.1
  let v ← literal current field.type entry.2
  pure (Layout.text (":" ++ field.name ++ " ") ++ v)

theorem assignments_eq_mapM (d : Record) (entries : List (Literal × Literal)) :
    assignments current d entries = entries.mapM (assignment current d) := by
  induction entries with
  | nil => rfl
  | cons entry entries ih =>
    rw [assignments, List.mapM_cons, assignment, ih]
    simp only [bind_assoc, pure_bind]

theorem fieldOfKey_string {d : Record} {name : String} {f : Field}
    (h : d.fieldNamed? name = some f) : fieldOfKey d (.string name) = .ok f := by
  simp only [fieldOfKey, h]

theorem fieldOfKey_unknown {d : Record} {name : String} (h : d.fieldNamed? name = none) :
    fieldOfKey d (.string name) = .error (.unknownField d.name name) := by
  simp only [fieldOfKey, h]

theorem fieldOfKey_other {d : Record} {key : Literal} (h : ∀ name, key ≠ .string name) :
    fieldOfKey d key = .error (.literalShape "field name" key.kind) := by
  cases key with
  | string name => exact absurd rfl (h name)
  | integer n | double x | list items | map entries => rfl

/-- The entry names a field, and its value conforms to the field's type. -/
def Assigns (d : Record) (entry : Literal × Literal) : Prop :=
  ∃ name f, entry.1 = .string name ∧ d.fieldNamed? name = some f ∧ Conforms f.type entry.2

theorem vets_assignment {kind : RecordKind} {d : Record} {entry : Literal × Literal}
    (hvalue : ∀ t, Vetted current t entry.2) :
    Vets (Assigns d) (WrongEntry (.record kind d)) [entry] (assignment current d entry) := by
  obtain ⟨key, value⟩ := entry
  unfold assignment
  by_cases hkey : ∃ name, key = .string name
  case pos =>
    obtain ⟨name, rfl⟩ := hkey
    cases hname : d.fieldNamed? name with
    | none =>
      rw [fieldOfKey_unknown hname]
      exact .unmet fun before after hbefore => .unknownField hbefore hname
    | some f =>
      rw [fieldOfKey_string hname]
      change Vets _ _ _ (literal current f.type value >>= _)
      rcases (hvalue f.type).cases with ⟨text, hwritten, hconforms⟩ | ⟨e, hrefused, hviolation⟩
      · rw [hwritten]
        exact .met ⟨name, f, rfl, hname, hconforms⟩ _
      · rw [hrefused]
        exact .unmet fun before after hbefore => .fieldValue hbefore hname hviolation
  case neg =>
    rw [fieldOfKey_other (not_exists.1 hkey)]
    exact .unmet fun before after hbefore => .fieldKey hbefore (not_exists.1 hkey)

theorem conforms_record {kind : RecordKind} {d : Record} {entries : List (Literal × Literal)}
    (h : ∀ entry ∈ entries, Assigns d entry) : Conforms (.record kind d) (.map entries) := by
  apply Conforms.record
  · intro entry hentry
    obtain ⟨name, f, hkey, hname, -⟩ := h entry hentry
    exact ⟨name, f, hkey, hname⟩
  · intro entry hentry name f hkey hname
    obtain ⟨name', f', hkey', hname', hvalue⟩ := h entry hentry
    obtain rfl := Literal.string.inj (hkey.symm.trans hkey')
    obtain rfl := Option.some.inj (hname.symm.trans hname')
    exact hvalue

/-- The entries of a map or record, if each one is checked as it is written. -/
theorem vets_entries {t : Ty} {good : Literal × Literal → Prop}
    {write : Literal × Literal → Except EmitError Layout} {entries : List (Literal × Literal)}
    (hgood : ∀ {entries}, (∀ entry ∈ entries, good entry) → Conforms t (.map entries))
    (h : ∀ entry ∈ entries, Vets good (WrongEntry t) [entry] (write entry)) :
    Vets (Conforms t) (FirstViolation t) [.map entries] (entries.mapM write) := by
  have hall := Vets.mapM h
  rw [List.flatMap_singleton'] at hall
  apply hall.whole hgood
  rintro before entry after e rfl hbefore hentry
  exact hentry before after (hgood hbefore)

/-! ### Literals -/

/-- A literal is checked against what stands behind typedefs. -/
theorem Vetted.of_trueType {t : Ty} {v : Literal}
    (h : Vets (Conforms t.trueType) (FirstViolation t.trueType) [v] (literal current t v)) :
    Vetted current t v := by
  unfold Vetted
  generalize literal current t v = x at h ⊢
  cases x with
  | ok text => exact .met h.good_of_met.of_trueType text
  | error e => exact .unmet h.bad_of_unmet.of_trueType

/-- A literal is written if it conforms to its type, and otherwise refused for its first violation. -/
theorem vetted (current : ProgramInfo) (t : Ty) (v : Literal) : Vetted current t v := by
  induction v generalizing t with
  | integer n => 
    apply Vetted.of_trueType
    rw [literal]
    cases htype : t.trueType with
    | base b => exact (vets_baseText b _).map _
    | enum d => exact .met (.enum d n) _
    | record kind d | list element | set element | map key value =>
      apply vets_shapeError rfl
      · nofun
      · intro hv
        cases hv
    | typedef d => exact absurd htype (t.trueType_ne_typedef d)
  | double x | string s =>
    apply Vetted.of_trueType
    rw [literal]
    cases htype : t.trueType with
    | base b => exact (vets_baseText b _).map _
    | enum d | record kind d | list element | set element | map key value =>
      apply vets_shapeError rfl
      · nofun
      · intro hv
        cases hv
    | typedef d => exact absurd htype (t.trueType_ne_typedef d)
  | list items ih =>
    apply Vetted.of_trueType
    rw [literal]
    cases htype : t.trueType with
    | base b => exact (vets_baseText b _).map _
    | list element =>
      have hitems := vets_literals fun item hitem => ih item hitem element
      apply (hitems.whole .list _).map
      rintro before item after e rfl hbefore hitem
      exact .item (.list hbefore) hitem
    | set element =>
      have hitems := vets_literals fun item hitem => ih item hitem element
      apply (hitems.whole .set _).map
      rintro before item after e rfl hbefore hitem
      exact .member (.set hbefore) hitem
    | enum d | record kind d | map key value =>
      apply vets_shapeError rfl
      · nofun
      · intro hv
        cases hv
    | typedef d => exact absurd htype (t.trueType_ne_typedef d)
  | map entries ih =>
    apply Vetted.of_trueType
    rw [literal]
    cases htype : t.trueType with
    | base b => exact (vets_baseText b _).map _
    | map key value =>
      have hentries : Vets (Conforms (.map key value)) (FirstViolation (.map key value))
          [.map entries] (entries.mapM (pair current key value)) := by
        apply vets_entries conforms_map
        intro entry hentry
        exact vets_pair ((ih entry hentry).1 key) ((ih entry hentry).2 value)
      rw [← pairs_eq_mapM] at hentries
      exact hentries.map _
    | record kind d =>
      have hentries : Vets (Conforms (.record kind d)) (FirstViolation (.record kind d))
          [.map entries] (entries.mapM (assignment current d)) := by
        apply vets_entries conforms_record
        intro entry hentry
        exact vets_assignment (ih entry hentry).2
      rw [← assignments_eq_mapM] at hentries
      exact hentries.map _
    | enum d | list element | set element =>
      apply vets_shapeError rfl
      · nofun
      · intro hv
        cases hv
    | typedef d => exact absurd htype (t.trueType_ne_typedef d)

/-! ### The first violation, as reported -/

theorem literal_of_conforms (current : ProgramInfo) {t : Ty} {v : Literal} (h : Conforms t v) :
    ∃ text, literal current t v = .ok text := by
  rcases (vetted current t v).cases with ⟨text, hwritten, -⟩ | ⟨e, -, hviolation⟩
  · exact ⟨text, hwritten⟩
  · exact absurd h hviolation.not_conforms

/-- A literal that has not the form of its type is refused as such, whatever its parts. -/
theorem literal_of_shape {t : Ty} {v : Literal} (htype : t.trueType = t) (hvoid : t ≠ .base .void)
    (h : ¬ Conforms t v.emptied) : literal current t v = .error (shapeError t v) := by
  rcases (vetted current t v).cases with ⟨text, -, hconforms⟩ | ⟨e, hrefused, hviolation⟩
  · exact absurd hconforms.emptied h
  · rw [hrefused]
    -- To find fault with a part is to have parts before it that suit the form.
    cases hviolation with
    | void => exact absurd rfl hvoid
    | shape => rfl
    | item hbefore | member hbefore | key hbefore | value hbefore | fieldKey hbefore
    | unknownField hbefore | fieldValue hbefore => exact absurd hbefore.emptied h
    | typedef => exact absurd htype (Ty.trueType_ne_typedef _ _)

theorem literals_of_first_error {element : Ty} {before : List Literal} {item : Literal}
    {e : EmitError} (hbefore : ∀ x ∈ before, Conforms element x)
    (hitem : literal current element item = .error e) (after : List Literal) :
    literals current element (before ++ item :: after) = .error e := by
  rw [literals_eq_mapM]
  apply mapM_of_first_error _ hitem
  intro x hx
  exact literal_of_conforms current (hbefore x hx)

theorem pairs_of_first_error {key value : Ty} {before : List (Literal × Literal)}
    {entry : Literal × Literal} {e : EmitError}
    (hbefore : Conforms (.map key value) (.map before))
    (hentry : pair current key value entry = .error e) (after : List (Literal × Literal)) :
    pairs current key value (before ++ entry :: after) = .error e := by
  cases hbefore with
  | map hkeys hvalues =>
    rw [pairs_eq_mapM]
    apply mapM_of_first_error _ hentry
    intro x hx
    obtain ⟨keyText, hk⟩ := literal_of_conforms current (hkeys x hx)
    obtain ⟨valueText, hv⟩ := literal_of_conforms current (hvalues x hx)
    apply Exists.intro
    rw [pair, hk, hv]
    rfl

theorem assignments_of_first_error {kind : RecordKind} {d : Record}
    {before : List (Literal × Literal)} {entry : Literal × Literal} {e : EmitError}
    (hbefore : Conforms (.record kind d) (.map before))
    (hentry : assignment current d entry = .error e) (after : List (Literal × Literal)) :
    assignments current d (before ++ entry :: after) = .error e := by
  cases hbefore with
  | record hnames hvalues =>
    rw [assignments_eq_mapM]
    apply mapM_of_first_error _ hentry
    intro x hx
    obtain ⟨name, f, hkey, hname⟩ := hnames x hx
    obtain ⟨valueText, hv⟩ := literal_of_conforms current (hvalues x hx name f hkey hname)
    apply Exists.intro
    rw [assignment, hkey, fieldOfKey_string hname]
    change (literal current f.type x.2 >>= _) = _
    rw [hv]
    rfl

/-- The first violation is the one that is reported. -/
theorem literal_of_firstViolation {t : Ty} {v : Literal} {e : EmitError} (h : FirstViolation t v e) :
    literal current t v = .error e := by
  induction h with
  | void v => cases v <;> rfl
  | shape htype hvoid h => exact literal_of_shape htype hvoid h
  | @item element before after item e hbefore h ih =>
    cases hbefore with
    | list hitems =>
      change (literals current element _).map _ = _
      rw [literals_of_first_error hitems ih]
      rfl
  | @member element before after item e hbefore h ih =>
    cases hbefore with
    | set hitems =>
      change (literals current element _).map _ = _
      rw [literals_of_first_error hitems ih]
      rfl
  | @key key value before after k v e hbefore h ih =>
    have hentry : pair current key value (k, v) = .error e := by
      rw [pair, ih]
      rfl
    change (pairs current key value _).map _ = _
    rw [pairs_of_first_error hbefore hentry]
    rfl
  | @value key value before after k v e hbefore hkey h ih =>
    obtain ⟨keyText, hk⟩ := literal_of_conforms current hkey
    have hentry : pair current key value (k, v) = .error e := by
      rw [pair, hk, ih]
      rfl
    change (pairs current key value _).map _ = _
    rw [pairs_of_first_error hbefore hentry]
    rfl
  | @fieldKey kind d before after k v hbefore hkey =>
    have hentry : assignment current d (k, v) = .error (.literalShape "field name" k.kind) := by
      rw [assignment, fieldOfKey_other hkey]
      rfl
    change (assignments current d _).map _ = _
    rw [assignments_of_first_error hbefore hentry]
    rfl
  | @unknownField kind d before after name v hbefore hname =>
    have hentry : assignment current d (.string name, v) = .error (.unknownField d.name name) := by
      rw [assignment, fieldOfKey_unknown hname]
      rfl
    change (assignments current d _).map _ = _
    rw [assignments_of_first_error hbefore hentry]
    rfl
  | @fieldValue kind d before after name f v e hbefore hname h ih =>
    have hentry : assignment current d (.string name, v) = .error e := by
      rw [assignment, fieldOfKey_string hname]
      change (literal current f.type v >>= _) = _
      rw [ih]
      rfl
    change (assignments current d _).map _ = _
    rw [assignments_of_first_error hbefore hentry]
    rfl
  | @typedef d v e h ih =>
    rw [← ih]
    cases v <;> simp only [literal, Ty.trueType_typedef]

end Lisp

end IdlGen
