import IdlGen.Json.Format

/-!
# The format of saved programs

Each declaration is an object of its parts. Types, literals and declarations of a program say by a
single key which kind they are. Lists, namespaces and the oneway mark may be left out, and so may
everything that a declaration need not have.
-/

namespace IdlGen.Schema

open Json

inductive Part where
  | info
  | program
  | definition
  | typedef
  | enumDef
  | enumLabel
  | record
  | field
  | service
  | method
  | constant
  | baseType
  | type
  | literal
  deriving DecidableEq

def word32 : Format Part := .integer (-2147483648) 2147483647

def word64 : Format Part := .integer (-9223372036854775808) 9223372036854775807

def must (key : String) (f : Format Part) : Slot Part := ⟨key, f, .required⟩

def may (key : String) (f : Format Part) : Slot Part := ⟨key, f, .optional⟩

/-- A list that is empty if left out. -/
def many (key : String) (item : Part) : Slot Part :=
  ⟨key, .list (.named item), .otherwise (.array [])⟩

def nameSlot : Slot Part := must "name" .text

def ownerSlot : Slot Part := may "program" (.named .info)

def docSlot : Slot Part := may "doc" .text

def typeSlot : Slot Part := must "type" (.named .type)

def infoSlots : List (Slot Part) :=
  [nameSlot, ⟨"namespaces", .texts, .otherwise (.object [])⟩]

def programSlots : List (Slot Part) :=
  [must "info" (.named .info), many "includes" .info, many "definitions" .definition]

def typedefSlots : List (Slot Part) :=
  [nameSlot, ownerSlot, must "target" (.named .type), docSlot]

def enumSlots : List (Slot Part) := [nameSlot, ownerSlot, many "values" .enumLabel, docSlot]

def labelSlots : List (Slot Part) := [nameSlot, may "value" word32]

def recordSlots : List (Slot Part) := [nameSlot, ownerSlot, many "fields" .field, docSlot]

def fieldSlots : List (Slot Part) :=
  [must "id" word32, nameSlot, typeSlot, may "default" (.named .literal), docSlot]

def serviceSlots : List (Slot Part) :=
  [nameSlot, ownerSlot, may "extends" (.named .service), many "functions" .method, docSlot]

def methodSlots : List (Slot Part) :=
  [nameSlot, many "args" .field, must "returns" (.named .type), many "exceptions" .field,
    ⟨"oneway", .flag, .otherwise (.flag false)⟩, docSlot]

def constantSlots : List (Slot Part) :=
  [nameSlot, typeSlot, must "value" (.named .literal), docSlot]

def definitionCases : List (String × Option (Format Part)) :=
  [("typedef", some (.named .typedef)), ("enum", some (.named .enumDef)),
    ("struct", some (.named .record)), ("exception", some (.named .record)),
    ("service", some (.named .service)), ("const", some (.named .constant))]

def baseTypeCases : List (String × Option (Format Part)) :=
  ["void", "bool", "byte", "i16", "i32", "i64", "double", "string"].map fun key => (key, none)

def typeCases : List (String × Option (Format Part)) :=
  [("base", some (.named .baseType)), ("enum", some (.named .enumDef)),
    ("struct", some (.named .record)), ("exception", some (.named .record)),
    ("list", some (.named .type)), ("set", some (.named .type)),
    ("map", some (.pair (.named .type) (.named .type))), ("typedef", some (.named .typedef))]

def literalCases : List (String × Option (Format Part)) :=
  [("integer", some word64), ("double", some .double), ("str", some .text),
    ("list", some (.list (.named .literal))),
    ("map", some (.list (.pair (.named .literal) (.named .literal))))]

def grammar : Part → Body Part
  | .info => .record infoSlots
  | .program => .record programSlots
  | .definition => .choice definitionCases
  | .typedef => .record typedefSlots
  | .enumDef => .record enumSlots
  | .enumLabel => .record labelSlots
  | .record => .record recordSlots
  | .field => .record fieldSlots
  | .service => .record serviceSlots
  | .method => .record methodSlots
  | .constant => .record constantSlots
  | .baseType => .choice baseTypeCases
  | .type => .choice typeCases
  | .literal => .choice literalCases

end IdlGen.Schema
