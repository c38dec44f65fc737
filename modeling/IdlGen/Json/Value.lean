import IdlGen.Json.Quoted
import IdlGen.Number.DoubleStyle

/-!
# JSON values and how they are written

A value is what a document says once its presentation is set aside. Members keep their order, and a
member without value keeps its place and is not written. The compact text has no blanks; the
indented text puts every item and member on a line of its own, two blanks deeper than its brackets,
and leaves empty brackets closed up.
-/

namespace IdlGen.Json

inductive Value where
  | null
  | flag (b : Bool)
  | integer (n : Int)
  | double (x : Binary64)
  | string (s : String)
  | array (items : List Value)
  | object (members : List (String × Option Value))
  deriving Inhabited

namespace Value

/-- Doubles are written out from `1e-5` up to but not including `1e16`, and otherwise with an
exponent that always has a sign. The last digit of a tie is even. -/
def doubleStyle : DoubleStyle := ⟨.even, -5, 16, 'e', true, ""⟩

/-- The text of a double. JSON has no infinities, so they are written as null. -/
def doubleText (x : Binary64) : List Char :=
  if x.isFinite then doubleStyle.write x else "null".toList

def leafText : Value → List Char
  | flag true => "true".toList
  | flag false => "false".toList
  | integer n => decimal n
  | double x => doubleText x
  | string s => Quoted.write s.toList
  | _ => "null".toList

def commas : List (List Char) → List Char
  | [] => []
  | [text] => text
  | text :: more => text ++ ',' :: commas more

/-! ## Compact text -/

mutual

def compact : Value → List Char
  | array items => '[' :: commas (compactItems items) ++ [']']
  | object members => '\x7b' :: commas (compactMembers members) ++ ['\x7d']
  | leaf => leafText leaf

def compactItems : List Value → List (List Char)
  | [] => []
  | v :: more => compact v :: compactItems more

def compactMembers : List (String × Option Value) → List (List Char)
  | [] => []
  | (_, none) :: more => compactMembers more
  | (key, some v) :: more => (Quoted.write key.toList ++ ':' :: compact v) :: compactMembers more

end

/-! ## Indented text -/

/-- A new line with blanks for its depth. -/
def newline (depth : Nat) : List Char := '\n' :: List.replicate (2 * depth) ' '

/-- Entries between brackets, each on its line one level deeper; empty brackets stay together. -/
def block (openMark closeMark : Char) (depth : Nat) (entries : List (List Char)) : List Char :=
  if entries.isEmpty then [openMark, closeMark]
  else openMark :: commas (entries.map (newline (depth + 1) ++ ·)) ++ newline depth ++ [closeMark]

mutual

/-- The indented text of a value that stands at a given depth. -/
def indented (depth : Nat) : Value → List Char
  | array items => block '[' ']' depth (indentedItems (depth + 1) items)
  | object members => block '\x7b' '\x7d' depth (indentedMembers (depth + 1) members)
  | leaf => leafText leaf

def indentedItems (depth : Nat) : List Value → List (List Char)
  | [] => []
  | v :: more => indented depth v :: indentedItems depth more

def indentedMembers (depth : Nat) : List (String × Option Value) → List (List Char)
  | [] => []
  | (_, none) :: more => indentedMembers depth more
  | (key, some v) :: more =>
    (Quoted.write key.toList ++ ':' :: ' ' :: indented depth v) :: indentedMembers depth more

end

def toText (v : Value) : String := String.ofList v.compact

def toIndentedText (v : Value) : String := String.ofList (v.indented 0)

end Value

end IdlGen.Json
