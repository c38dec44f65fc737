import IdlGen.Number.Binary64

/-!
# Literals

A constant as it is written in an interface definition. A map also serves as the literal of a
record, with field names for keys. Items and entries keep their order.
-/

namespace IdlGen

inductive Literal where
  | integer (n : Int64)
  | double (x : Binary64)
  | string (s : String)
  | list (items : List Literal)
  | map (entries : List (Literal × Literal))

namespace Literal

/-- The form of a literal, as error messages name it. -/
def kind : Literal → String
  | integer _ => "integer"
  | double _ => "double"
  | string _ => "string"
  | list _ => "list"
  | map _ => "map"

def string? : Literal → Option String
  | string s => some s
  | _ => none

end Literal

end IdlGen
