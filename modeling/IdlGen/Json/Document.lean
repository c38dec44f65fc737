import IdlGen.Json.Format

/-!
# Things that are kept as JSON

A kind of thing that can be saved names its format and turns into values and back. Reading checks
the text against the format first, so the way back only ever sees values of that format.
-/

namespace IdlGen.Json

/-- A type whose values are written as JSON and read back. -/
class Document (α : Type) where
  /-- The names of the formats that belong together. -/
  Name : Type
  grammar : Name → Body Name
  name : Name
  toValue : α → Value
  ofValue : Value → Option α

namespace Document

variable {α : Type} [Document α]

def format (α : Type) [Document α] : Format (Name α) := .named name

/-- The thing that a value of the format stands for. -/
def ofReading (r : Except Fault Value) : Except Fault α :=
  match r with
  | .error fault => .error fault
  | .ok v =>
    match ofValue v with
    | some x => .ok x
    | none => .error .mismatched

def ofText (text : String) : Except Fault α :=
  ofReading (readText grammar (format α) text.toList)

/-- Reads a part of a text that has been outlined. -/
def ofOutline (o : Outline) : Except Fault α :=
  ofReading (read grammar (format α) depthLimit o)

def toText (x : α) : String := (toValue x).toText

/-- The text with every member on its own line. -/
def toIndentedText (x : α) : String := (toValue x).toIndentedText

end Document

end IdlGen.Json
