import IdlGen.Proofs.Schema.Rebuilding

/-!
# What of a program matters to one target language

Much of a program is not there for the code of a given language: the namespaces for the others, the names
of included programs, documentation that is not written, the defaults of arguments, and of what is only
referred to, whatever goes beyond its name and shape. The essence of a program is the program without all
that. So two programs with the same essence differ in nothing else.
-/

namespace IdlGen

variable (language : String)

/-! ### Programs by name -/

/-- The name and the namespace for the language, unless that is empty. -/
def ProgramInfo.essence (info : ProgramInfo) : ProgramInfo where
  name := info.name
  namespaces :=
    match info.namespaceFor language with
    | none => ∅
    | some ns => (∅ : Keyed String).insert language ns

/-- Of an included program not even the name is left. -/
def ProgramInfo.essenceOfInclude (info : ProgramInfo) : ProgramInfo :=
  { info.essence language with name := "" }

/-! ### Types -/

/-- The field of a record that is referred to: its name and its type. -/
def FieldOf.bare {τ : Type} (f : FieldOf τ) : FieldOf τ := { id := 0, name := f.name, type := f.type }

/-- Of an enum that is referred to the name is left. Records keep their fields, and with the typedefs
they keep what is left of the programs that declare them. -/
def Rebuilding.essence : Rebuilding where
  enum d := { name := d.name }
  record d :=
    { name := d.name
      owner := d.owner.map (ProgramInfo.essence language)
      fields := d.fields.map FieldOf.bare }
  typedef d :=
    .typedef
      { name := d.name
        owner := d.owner.map (ProgramInfo.essence language)
        target := d.target }

def Ty.essence (t : Ty) : Ty := t.rebuild (.essence language)

/-! ### Declarations -/

/-- An argument has no default and no documentation. -/
def FieldOf.essenceOfArgument (f : Field) : Field :=
  { id := f.id, name := f.name, type := f.type.essence language }

def Method.essence (m : Method) : Method where
  name := m.name
  args := m.args.map (FieldOf.essenceOfArgument language)
  returns := m.returns.essence language
  exceptions := m.exceptions.map (FieldOf.map (Ty.essence language))
  oneway := m.oneway

/-- Of a service that is extended the name and the program that declares it are left. -/
def Service.essenceOfBase (s : Service) : Service where
  name := s.name
  owner := s.owner.map (ProgramInfo.essence language)

def Service.essence (s : Service) : Service where
  name := s.name
  owner := s.owner.map (ProgramInfo.essence language)
  base := s.base.map (Service.essenceOfBase language)
  methods := s.methods.map (Method.essence language)
  doc := s.doc

def Definition.essence : Definition → Definition
  | typedef d =>
    typedef
      { name := d.name
        owner := d.owner.map (ProgramInfo.essence language)
        target := d.target.essence language }
  | enum d =>
    enum
      { name := d.name
        owner := d.owner.map (ProgramInfo.essence language)
        labels := d.labels }
  | record kind d =>
    record kind
      { name := d.name
        owner := d.owner.map (ProgramInfo.essence language)
        fields := d.fields.map (FieldOf.map (Ty.essence language))
        doc := d.doc }
  | service s => service (s.essence language)
  | constant c => constant { name := c.name, type := c.type.essence language, value := c.value }

def Program.essence (p : Program) : Program where
  info := p.info.essence language
  includes := p.includes.map (ProgramInfo.essenceOfInclude language)
  definitions := p.definitions.map (Definition.essence language)

/-! ### What the essence keeps -/

@[simp] theorem ProgramInfo.name_essence (info : ProgramInfo) :
    (info.essence language).name = info.name := rfl

@[simp] theorem ProgramInfo.namespaceFor_essence (info : ProgramInfo) :
    (info.essence language).namespaceFor language = info.namespaceFor language := by
  have hfiltered : ∀ held : Option String,
      (match held.filter fun ns => ns ≠ "" with
        | none => (∅ : Keyed String)
        | some ns => (∅ : Keyed String).insert language ns).get? language =
        held.filter fun ns => ns ≠ "" := by
    intro held
    cases held.filter fun ns => ns ≠ "" with
    | none => rfl
    | some ns => rw [Keyed.get?_insert, if_pos rfl]
  change Option.filter _ ((info.essence language).namespaces.get? language) = _
  rw [ProgramInfo.essence, ProgramInfo.namespaceFor, hfiltered, Option.filter_filter]
  simp

/-- In messages a type goes by the same text. -/
theorem Ty.describe_essence (t : Ty) : (t.essence language).describe = t.describe := by
  induction t with
  | base b | enum d => rfl
  | record kind d =>
    rw [Ty.essence, Ty.rebuild_record]
    rfl
  | list element ih | set element ih =>
    rw [Ty.essence] at ih ⊢
    simp only [Ty.rebuild_list, Ty.rebuild_set, Ty.describe, ih]
  | map key value ihKey ihValue =>
    rw [Ty.essence] at ihKey ihValue ⊢
    simp only [Ty.rebuild_map, Ty.describe, ihKey, ihValue]
  | typedef d =>
    rw [Ty.essence, Ty.rebuild_typedef]
    rfl

end IdlGen
