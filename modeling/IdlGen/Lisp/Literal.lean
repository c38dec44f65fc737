import IdlGen.EmitError
import IdlGen.Layout
import IdlGen.Lisp.Name
import IdlGen.Number.DoubleStyle

/-!
# Literals in Lisp

A literal is written by the type it is declared with. Lists, sets, maps and records are forms with
a head and one entry per line, one level deeper than the head. A literal that does not fit its type
is refused at the first place, from left to right, where it fails.
-/

namespace IdlGen.Lisp

/-- Doubles are written out from `1e-4` up to but not including `1e16`, and the last digit of a tie is
rounded up. They always have an exponent marked `d`, which makes them doubles for Lisp. -/
def doubleStyle : DoubleStyle := ⟨.up, -4, 16, 'd', false, "d0"⟩

def integerText (n : Int) : String := String.ofList (decimal n)

/-- A string between quotes, its quotes and backslashes escaped. -/
def quote (s : String) : String :=
  String.ofList ('"' :: s.toList.flatMap (fun c => if c = '"' ∨ c = '\\' then ['\\', c] else [c])
    ++ ['"'])

/-- The function that constructs a record of some kind. -/
def constructor : RecordKind → String
  | .struct => "make-instance"
  | .exception => "make-exception"

/-- A head and entries, each entry on its own line one level deeper. -/
def composite (head : String) (entries : List Layout) : Layout :=
  Layout.text "(" ++ Layout.text head
    ++ Layout.indent (Layout.concat (entries.flatMap fun entry => [Layout.line, entry]))
    ++ Layout.text ")"

/-- The refusal of a literal whose form does not fit. -/
def shapeError (type : Ty) (value : Literal) : EmitError := .literalShape type.describe value.kind

def baseText (b : BaseType) (value : Literal) : Except EmitError String :=
  match b, value with
  | .void, _ => .error (.unsupportedType b.name)
  | .string, .string s => .ok (quote s)
  | .bool, .integer n => .ok (if 0 < n.toInt then "t" else "nil")
  | .byte, .integer n => .ok (integerText n.toInt)
  | .i16, .integer n => .ok (integerText n.toInt)
  | .i32, .integer n => .ok (integerText n.toInt)
  | .i64, .integer n => .ok (integerText n.toInt)
  | .double, .integer n => .ok (integerText n.toInt)
  | .double, .double x =>
    if x.isFinite then .ok (String.ofList (doubleStyle.write x))
    else .error (.literalShape b.name value.kind)
  | _, _ => .error (.literalShape b.name value.kind)

def fieldOfKey (d : Record) (key : Literal) : Except EmitError Field :=
  match key with
  | .string name =>
    match d.fieldNamed? name with
    | some field => .ok field
    | none => .error (.unknownField d.name name)
  | other => .error (.literalShape "field name" other.kind)

mutual

/-- The literal of a value, by the type it is declared with. -/
def literal (current : ProgramInfo) (type : Ty) : Literal → Except EmitError Layout
  | .list items =>
    match type.trueType with
    | .list element => (literals current element items).map (composite "thrift:list")
    | .set element => (literals current element items).map (composite "thrift:set")
    | .base b => (baseText b (.list items)).map .text
    | other => .error (shapeError other (.list items))
  | .map entries =>
    match type.trueType with
    | .map key value => (pairs current key value entries).map (composite "thrift:map")
    | .record kind d =>
      (assignments current d entries).map
        (composite (constructor kind ++ " '" ++ recordName d current))
    | .base b => (baseText b (.map entries)).map .text
    | other => .error (shapeError other (.map entries))
  | .integer n =>
    match type.trueType with
    | .base b => (baseText b (.integer n)).map .text
    | .enum _ => .ok (.text (integerText n.toInt))
    | other => .error (shapeError other (.integer n))
  | .double x =>
    match type.trueType with
    | .base b => (baseText b (.double x)).map .text
    | other => .error (shapeError other (.double x))
  | .string s =>
    match type.trueType with
    | .base b => (baseText b (.string s)).map .text
    | other => .error (shapeError other (.string s))

def literals (current : ProgramInfo) (element : Ty) :
    List Literal → Except EmitError (List Layout)
  | [] => .ok []
  | item :: more => do
    let first ← literal current element item
    let rest ← literals current element more
    pure (first :: rest)

def pairs (current : ProgramInfo) (keyType valueType : Ty) :
    List (Literal × Literal) → Except EmitError (List Layout)
  | [] => .ok []
  | (key, value) :: more => do
    let k ← literal current keyType key
    let v ← literal current valueType value
    let rest ← pairs current keyType valueType more
    pure ((Layout.text "(cl:cons " ++ k ++ Layout.text " " ++ v ++ Layout.text ")") :: rest)

/-- The fields that a record literal gives, in the order of the literal. -/
def assignments (current : ProgramInfo) (d : Record) :
    List (Literal × Literal) → Except EmitError (List Layout)
  | [] => .ok []
  | (key, value) :: more => do
    let field ← fieldOfKey d key
    let v ← literal current field.type value
    let rest ← assignments current d more
    pure ((Layout.text (":" ++ field.name ++ " ") ++ v) :: rest)

end

end IdlGen.Lisp
