import IdlGen.Proofs.Schema.Induction
import IdlGen.Schema.Program
import Mathlib.Data.List.Forall2

/-!
# Types rebuilt from the inside

A rebuilding says what becomes of the enums, records and typedefs in a type; it is carried out to any
depth, also in the fields of records and behind typedefs. Two rebuildings matter here: one puts in the
place of every typedef what stands behind it, the other changes the defaults of all fields.

A program has types in many places, and one map of types goes through all of them.
-/

namespace IdlGen

/-! ### Maps of declarations -/

variable {τ υ : Type}

def FieldOf.map (g : τ → υ) (f : FieldOf τ) : FieldOf υ := ⟨f.id, f.name, g f.type, f.default, f.doc⟩

def FieldOf.mapDefault (change : Option Literal → Option Literal) (f : FieldOf τ) : FieldOf τ :=
  { f with default := change f.default }

def RecordOf.map (g : τ → υ) (d : RecordOf τ) : RecordOf υ :=
  ⟨d.name, d.owner, d.fields.map (FieldOf.map g), d.doc⟩

def TypedefOf.map (g : τ → υ) (d : TypedefOf τ) : TypedefOf υ := ⟨d.name, d.owner, g d.target, d.doc⟩

/-! ### Rebuilding -/

/-- What becomes of the parts of a type. Records and typedefs are handed over when the types in them
have been rebuilt. -/
structure Rebuilding where
  enum : EnumDef → EnumDef := id
  record : Record → Record := id
  typedef : Typedef → Ty := .typedef

namespace Ty

mutual

def rebuild (r : Rebuilding) : Ty → Ty
  | base b => base b
  | enum d => enum (r.enum d)
  | record kind d => record kind (r.record (rebuildRecord r d))
  | list element => list (rebuild r element)
  | set element => set (rebuild r element)
  | map key value => map (rebuild r key) (rebuild r value)
  | typedef d => r.typedef (rebuildTypedef r d)

def rebuildRecord (r : Rebuilding) : Record → Record
  | ⟨name, owner, fields, doc⟩ => ⟨name, owner, rebuildFields r fields, doc⟩

def rebuildFields (r : Rebuilding) : List Field → List Field
  | [] => []
  | f :: more => rebuildField r f :: rebuildFields r more

def rebuildField (r : Rebuilding) : Field → Field
  | ⟨id, name, type, default, doc⟩ => ⟨id, name, rebuild r type, default, doc⟩

def rebuildTypedef (r : Rebuilding) : Typedef → Typedef
  | ⟨name, owner, target, doc⟩ => ⟨name, owner, rebuild r target, doc⟩

end

variable (r : Rebuilding)

theorem rebuildFields_eq_map (fields : List Field) :
    rebuildFields r fields = fields.map (FieldOf.map (rebuild r)) := by
  induction fields with
  | nil => rfl
  | cons f fields ih =>
    obtain ⟨id, name, type, default, doc⟩ := f
    rw [rebuildFields, ih]
    rfl

@[simp] theorem rebuild_base (b : BaseType) : (base b).rebuild r = base b := rfl

@[simp] theorem rebuild_enum (d : EnumDef) : (enum d).rebuild r = enum (r.enum d) := rfl

@[simp] theorem rebuild_record (kind : RecordKind) (d : Record) :
    (record kind d).rebuild r = record kind (r.record (d.map (rebuild r))) := by
  obtain ⟨name, owner, fields, doc⟩ := d
  rw [rebuild, rebuildRecord, rebuildFields_eq_map]
  rfl

@[simp] theorem rebuild_list (element : Ty) :
    (list element).rebuild r = list (element.rebuild r) := rfl

@[simp] theorem rebuild_set (element : Ty) : (set element).rebuild r = set (element.rebuild r) := rfl

@[simp] theorem rebuild_map (key value : Ty) :
    (map key value).rebuild r = map (key.rebuild r) (value.rebuild r) := rfl

@[simp] theorem rebuild_typedef (d : Typedef) :
    (typedef d).rebuild r = r.typedef (d.map (rebuild r)) := by
  obtain ⟨name, owner, target, doc⟩ := d
  rfl

end Ty

/-! ### Two rebuildings -/

namespace Rebuilding

/-- Every typedef gives way to what stands behind it. -/
def resolving : Rebuilding where
  typedef d := d.target

/-- The fields of all records get other defaults. -/
def defaulting (change : Option Literal → Option Literal) : Rebuilding where
  record d := { d with fields := d.fields.map (FieldOf.mapDefault change) }

end Rebuilding

namespace Ty

def resolved (t : Ty) : Ty := t.rebuild .resolving

def mapDefaults (change : Option Literal → Option Literal) (t : Ty) : Ty :=
  t.rebuild (.defaulting change)

theorem resolved_typedef (d : Typedef) : (typedef d).resolved = d.target.resolved :=
  rebuild_typedef _ d

end Ty

/-! ### Types in programs -/

def Method.mapTypes (g : Ty → Ty) (m : Method) : Method :=
  { m with
    args := m.args.map (FieldOf.map g)
    returns := g m.returns
    exceptions := m.exceptions.map (FieldOf.map g) }

namespace Service

mutual

/-- Changes the methods of a service and of those it extends. -/
def mapMethods (g : Method → Method) : Service → Service
  | ⟨name, owner, base, methods, doc⟩ => ⟨name, owner, mapBase g base, methods.map g, doc⟩

def mapBase (g : Method → Method) : Option Service → Option Service
  | none => none
  | some s => some (mapMethods g s)

end

end Service

namespace Definition

/-- Changes the types of a declaration: those that it declares something with, and those behind
typedefs, in services that are extended and so on. -/
def mapTypes (g : Ty → Ty) : Definition → Definition
  | typedef d => typedef (d.map g)
  | enum d => enum d
  | record kind d => record kind (d.map g)
  | service s => service (s.mapMethods (Method.mapTypes g))
  | constant c => constant { c with type := g c.type }

/-- The declaration without typedefs in its types; typedefs themselves are left out. -/
def resolved? : Definition → Option Definition
  | typedef _ => none
  | enum d => some (enum d)
  | record kind d => some ((record kind d).mapTypes Ty.resolved)
  | service s => some ((service s).mapTypes Ty.resolved)
  | constant c => some ((constant c).mapTypes Ty.resolved)

/-- Changes the arguments of the methods of a service. -/
def mapArguments (g : Field → Field) : Definition → Definition
  | service s => service (s.mapMethods fun m => { m with args := m.args.map g })
  | d => d

/-- Other defaults where no constant or declared field has them: for the arguments of methods and for the
fields of records that stand in types. -/
def mapIdleDefaults (change : Option Literal → Option Literal) (d : Definition) : Definition :=
  (d.mapTypes (Ty.mapDefaults change)).mapArguments (FieldOf.mapDefault change)

end Definition

namespace Program

/-- The program without typedefs: neither in its types nor among its declarations. -/
def resolved (p : Program) : Program :=
  { p with definitions := p.definitions.filterMap Definition.resolved? }

def mapIdleDefaults (change : Option Literal → Option Literal) (p : Program) : Program :=
  { p with definitions := p.definitions.map (Definition.mapIdleDefaults change) }

end Program

end IdlGen
