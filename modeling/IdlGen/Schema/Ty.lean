import IdlGen.Schema.EnumDef
import IdlGen.Schema.Literal

/-!
# Types

Types hold the declarations they refer to, and records hold the types of their fields. The
declarations are written once over any type of types, and `Ty` closes the circle. A chain of
typedefs therefore always ends in a type of another kind.
-/

namespace IdlGen

inductive BaseType where
  /-- For functions that return nothing. -/
  | void
  | bool
  | byte
  | i16
  | i32
  | i64
  | double
  | string
  deriving DecidableEq

namespace BaseType

def name : BaseType → String
  | void => "void"
  | bool => "bool"
  | byte => "byte"
  | i16 => "i16"
  | i32 => "i32"
  | i64 => "i64"
  | double => "double"
  | string => "string"

def isIntegral : BaseType → Bool
  | byte | i16 | i32 | i64 => true
  | _ => false

end BaseType

/-- The two kinds of record, which are declared and constructed by different forms. -/
inductive RecordKind where
  | struct
  | exception
  deriving DecidableEq

def RecordKind.name : RecordKind → String
  | .struct => "struct"
  | .exception => "exception"

/-- A field of a record, an argument of a method or a case of its throws clause. -/
structure FieldOf (τ : Type) where
  id : Int32
  name : String
  type : τ
  default : Option Literal := none
  doc : Option String := none

structure RecordOf (τ : Type) where
  name : String
  /-- The declaring program; a declaration without one is local. -/
  owner : Option ProgramInfo := none
  fields : List (FieldOf τ) := []
  doc : Option String := none

structure TypedefOf (τ : Type) where
  name : String
  /-- The declaring program; a declaration without one is local. -/
  owner : Option ProgramInfo := none
  target : τ
  doc : Option String := none

inductive Ty where
  | base (b : BaseType)
  | enum (d : EnumDef)
  | record (kind : RecordKind) (d : RecordOf Ty)
  | list (element : Ty)
  | set (element : Ty)
  | map (key value : Ty)
  | typedef (d : TypedefOf Ty)

abbrev Field := FieldOf Ty

abbrev Record := RecordOf Ty

abbrev Typedef := TypedefOf Ty

namespace FieldOf

variable {τ : Type}

def withDefault (f : FieldOf τ) (value : Literal) : FieldOf τ := { f with default := some value }

def withDoc (f : FieldOf τ) (doc : String) : FieldOf τ := { f with doc := some doc }

end FieldOf

namespace RecordOf

variable {τ : Type}

def inProgram (d : RecordOf τ) (owner : ProgramInfo) : RecordOf τ := { d with owner := some owner }

def field (d : RecordOf τ) (f : FieldOf τ) : RecordOf τ := { d with fields := d.fields ++ [f] }

def withDoc (d : RecordOf τ) (doc : String) : RecordOf τ := { d with doc := some doc }

def fieldNamed? (d : RecordOf τ) (name : String) : Option (FieldOf τ) :=
  d.fields.find? fun f => f.name = name

end RecordOf

def TypedefOf.inProgram {τ : Type} (d : TypedefOf τ) (owner : ProgramInfo) : TypedefOf τ :=
  { d with owner := some owner }

namespace Ty

/-- The type behind all typedefs on the outside. Those inside a container stay. -/
def trueType : Ty → Ty
  | typedef ⟨_, _, target, _⟩ => target.trueType
  | t => t

/-- The text of a type in error messages. Typedefs go by their own names. -/
def describe : Ty → String
  | base b => b.name
  | enum d => "enum " ++ d.name
  | record kind d => kind.name ++ " " ++ d.name
  | list element => "list<" ++ element.describe ++ ">"
  | set element => "set<" ++ element.describe ++ ">"
  | map key value => "map<" ++ key.describe ++ ", " ++ value.describe ++ ">"
  | typedef d => d.name

end Ty

end IdlGen
