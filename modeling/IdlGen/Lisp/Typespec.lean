import IdlGen.Lisp.Name

/-!
# Typespecs

The expression that names a type in field lists and method signatures. Typedefs are resolved at
every level; records and enums go by name.
-/

namespace IdlGen.Lisp

/-- The type expression of a type, as the current program writes it. -/
def typespec (current : ProgramInfo) : Ty → String
  | .base b => b.name
  | .enum d => "(enum " ++ symbol d.name ++ ")"
  | .record _ d => "(struct " ++ symbol (recordName d current) ++ ")"
  | .list element => "(list " ++ typespec current element ++ ")"
  | .set element => "(set " ++ typespec current element ++ ")"
  | .map key value => "(map " ++ typespec current key ++ " " ++ typespec current value ++ ")"
  | .typedef ⟨_, _, target, _⟩ => typespec current target

end IdlGen.Lisp
