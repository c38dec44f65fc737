import IdlGen.Json.Document
import IdlGen.Schema.Format
import IdlGen.Schema.Program

/-!
# Saving programs

Every part of a program as a value of its format, and back.
-/

namespace IdlGen

open Json Schema

/-! ## Pieces -/

namespace Schema

def optional? {α : Type} (f : Value → Option α) : Option Value → Option (Option α)
  | none => some none
  | some v => (f v).map some

def text? : Value → Option String
  | .string s => some s
  | _ => none

def flag? : Value → Option Bool
  | .flag b => some b
  | _ => none

def texts? : List (String × Option Value) → Option (List (String × String))
  | [] => some []
  | (key, some (.string s)) :: more => (texts? more).map ((key, s) :: ·)
  | _ => none

def list? {α : Type} (f : Value → Option α) : Value → Option (List α)
  | .array items => items.mapM f
  | _ => none

def doc? : Option Value → Option (Option String) := optional? text?

def word? : Value → Option Int32
  | .integer n => some (Int32.ofInt n)
  | _ => none

end Schema

/-! ## Names, enums and literals -/

namespace ProgramInfo

def toValue (info : ProgramInfo) : Value :=
  recordValue infoSlots
    [some (.string info.name),
      some (.object (info.namespaces.entries.map fun e => (e.1, some (.string e.2))))]

def ofValue : Value → Option ProgramInfo
  | .object [(_, some (.string name)), (_, some (.object entries))] =>
    (texts? entries).map fun l => ⟨name, Keyed.ofList l⟩
  | _ => none

instance : Document ProgramInfo := ⟨Part, grammar, .info, toValue, ofValue⟩

end ProgramInfo

def Schema.owner? : Option Value → Option (Option ProgramInfo) := optional? ProgramInfo.ofValue

namespace EnumLabel

def toValue (l : EnumLabel) : Value :=
  recordValue labelSlots [some (.string l.name), l.value.map fun n => .integer n.toInt]

def ofValue : Value → Option EnumLabel
  | .object [(_, some (.string name)), (_, value)] => do
    pure { name, value := ← optional? word? value }
  | _ => none

instance : Document EnumLabel := ⟨Part, grammar, .enumLabel, toValue, ofValue⟩

end EnumLabel

namespace EnumDef

def toValue (d : EnumDef) : Value :=
  recordValue enumSlots
    [some (.string d.name), d.owner.map ProgramInfo.toValue,
      some (.array (d.labels.map EnumLabel.toValue)), d.doc.map .string]

def ofValue : Value → Option EnumDef
  | .object [(_, some (.string name)), (_, owner), (_, some labels), (_, doc)] => do
    pure
      { name, owner := ← owner? owner, labels := ← list? EnumLabel.ofValue labels
        doc := ← doc? doc }
  | _ => none

instance : Document EnumDef := ⟨Part, grammar, .enumDef, toValue, ofValue⟩

end EnumDef

namespace Literal

mutual

def toValue : Literal → Value
  | integer n => .object [("integer", some (.integer n.toInt))]
  | double x => .object [("double", some (.double x))]
  | string s => .object [("str", some (.string s))]
  | list items => .object [("list", some (.array (itemsToValues items)))]
  | map entries => .object [("map", some (.array (entriesToValues entries)))]

def itemsToValues : List Literal → List Value
  | [] => []
  | l :: more => toValue l :: itemsToValues more

def entriesToValues : List (Literal × Literal) → List Value
  | [] => []
  | (k, v) :: more => .array [toValue k, toValue v] :: entriesToValues more

end

mutual

def ofValue : Value → Option Literal
  | .object [("integer", some (.integer n))] => some (integer (Int64.ofInt n))
  | .object [("double", some (.double x))] => some (double x)
  | .object [("str", some (.string s))] => some (string s)
  | .object [("list", some (.array items))] => (itemsOfValues items).map list
  | .object [("map", some (.array entries))] => (entriesOfValues entries).map map
  | _ => none

def itemsOfValues : List Value → Option (List Literal)
  | [] => some []
  | v :: more => do pure ((← ofValue v) :: (← itemsOfValues more))

def entriesOfValues : List Value → Option (List (Literal × Literal))
  | [] => some []
  | .array [k, v] :: more => do pure ((← ofValue k, ← ofValue v) :: (← entriesOfValues more))
  | _ => none

end

instance : Document Literal := ⟨Part, grammar, .literal, toValue, ofValue⟩

end Literal

/-! ## Types -/

namespace BaseType

def toValue (b : BaseType) : Value := .string b.name

def all : List BaseType := [void, bool, byte, i16, i32, i64, double, string]

def ofValue : Value → Option BaseType
  | .string s => all.find? fun b => b.name = s
  | _ => none

instance : Document BaseType := ⟨Part, grammar, .baseType, toValue, ofValue⟩

end BaseType

namespace Ty

mutual

def toValue : Ty → Value
  | base b => .object [("base", some b.toValue)]
  | enum d => .object [("enum", some d.toValue)]
  | record kind d => .object [(kind.name, some (recordToValue d))]
  | list element => .object [("list", some (toValue element))]
  | set element => .object [("set", some (toValue element))]
  | map key value => .object [("map", some (.array [toValue key, toValue value]))]
  | typedef d => .object [("typedef", some (typedefToValue d))]

def recordToValue : Record → Value
  | ⟨name, owner, fields, doc⟩ =>
    recordValue recordSlots
      [some (.string name), owner.map ProgramInfo.toValue, some (.array (fieldsToValues fields)),
        doc.map .string]

def fieldsToValues : List Field → List Value
  | [] => []
  | f :: more => fieldToValue f :: fieldsToValues more

def fieldToValue : Field → Value
  | ⟨id, name, type, default, doc⟩ =>
    recordValue fieldSlots
      [some (.integer id.toInt), some (.string name), some (toValue type),
        default.map Literal.toValue, doc.map .string]

def typedefToValue : Typedef → Value
  | ⟨name, owner, target, doc⟩ =>
    recordValue typedefSlots
      [some (.string name), owner.map ProgramInfo.toValue, some (toValue target), doc.map .string]

end

mutual

def ofValue : Value → Option Ty
  | .object [("base", some v)] => (BaseType.ofValue v).map base
  | .object [("enum", some v)] => (EnumDef.ofValue v).map enum
  | .object [("struct", some v)] => (recordOfValue v).map (record .struct)
  | .object [("exception", some v)] => (recordOfValue v).map (record .exception)
  | .object [("list", some v)] => (ofValue v).map list
  | .object [("set", some v)] => (ofValue v).map set
  | .object [("map", some (.array [k, v]))] => do pure (map (← ofValue k) (← ofValue v))
  | .object [("typedef", some v)] => (typedefOfValue v).map typedef
  | _ => none

def recordOfValue : Value → Option Record
  | .object [(_, some (.string name)), (_, owner), (_, some (.array fields)), (_, doc)] => do
    pure
      { name, owner := ← owner? owner, fields := ← fieldsOfValues fields, doc := ← doc? doc }
  | _ => none

def fieldsOfValues : List Value → Option (List Field)
  | [] => some []
  | v :: more => do pure ((← fieldOfValue v) :: (← fieldsOfValues more))

def fieldOfValue : Value → Option Field
  | .object [(_, some id), (_, some (.string name)), (_, some type), (_, default), (_, doc)] => do
    pure
      { id := ← word? id, name, type := ← ofValue type
        default := ← optional? Literal.ofValue default, doc := ← doc? doc }
  | _ => none

def typedefOfValue : Value → Option Typedef
  | .object [(_, some (.string name)), (_, owner), (_, some target), (_, doc)] => do
    pure { name, owner := ← owner? owner, target := ← ofValue target, doc := ← doc? doc }
  | _ => none

end

instance : Document Ty := ⟨Part, grammar, .type, toValue, ofValue⟩

instance : Document Record := ⟨Part, grammar, .record, recordToValue, recordOfValue⟩

instance : Document Field := ⟨Part, grammar, .field, fieldToValue, fieldOfValue⟩

instance : Document Typedef := ⟨Part, grammar, .typedef, typedefToValue, typedefOfValue⟩

end Ty

/-! ## Services and programs -/

namespace Method

def toValue (m : Method) : Value :=
  recordValue methodSlots
    [some (.string m.name), some (.array (Ty.fieldsToValues m.args)), some m.returns.toValue,
      some (.array (Ty.fieldsToValues m.exceptions)), some (.flag m.oneway), m.doc.map .string]

def ofValue : Value → Option Method
  | .object [(_, some (.string name)), (_, some args), (_, some returns), (_, some exceptions),
      (_, some oneway), (_, doc)] => do
    pure
      { name, args := ← list? Ty.fieldOfValue args, returns := ← Ty.ofValue returns
        exceptions := ← list? Ty.fieldOfValue exceptions, oneway := ← flag? oneway
        doc := ← doc? doc }
  | _ => none

instance : Document Method := ⟨Part, grammar, .method, toValue, ofValue⟩

end Method

namespace Service

mutual

def toValue : Service → Value
  | ⟨name, owner, base, methods, doc⟩ =>
    recordValue serviceSlots
      [some (.string name), owner.map ProgramInfo.toValue, baseToValue base,
        some (.array (methods.map Method.toValue)), doc.map .string]

def baseToValue : Option Service → Option Value
  | none => none
  | some s => some (toValue s)

end

mutual

def ofValue : Value → Option Service
  | .object [(_, some (.string name)), (_, owner), (_, base), (_, some methods), (_, doc)] => do
    pure
      { name, owner := ← owner? owner, base := ← baseOfValue base
        methods := ← list? Method.ofValue methods, doc := ← doc? doc }
  | _ => none

def baseOfValue : Option Value → Option (Option Service)
  | none => some none
  | some v => (ofValue v).map some

end

instance : Document Service := ⟨Part, grammar, .service, toValue, ofValue⟩

end Service

namespace Constant

def toValue (c : Constant) : Value :=
  recordValue constantSlots
    [some (.string c.name), some c.type.toValue, some c.value.toValue, c.doc.map .string]

def ofValue : Value → Option Constant
  | .object [(_, some (.string name)), (_, some type), (_, some value), (_, doc)] => do
    pure
      { name, type := ← Ty.ofValue type, value := ← Literal.ofValue value, doc := ← doc? doc }
  | _ => none

instance : Document Constant := ⟨Part, grammar, .constant, toValue, ofValue⟩

end Constant

namespace Definition

def toValue : Definition → Value
  | typedef d => .object [("typedef", some (Ty.typedefToValue d))]
  | enum d => .object [("enum", some d.toValue)]
  | record kind d => .object [(kind.name, some (Ty.recordToValue d))]
  | service d => .object [("service", some d.toValue)]
  | constant d => .object [("const", some d.toValue)]

def ofValue : Value → Option Definition
  | .object [("typedef", some v)] => (Ty.typedefOfValue v).map typedef
  | .object [("enum", some v)] => (EnumDef.ofValue v).map enum
  | .object [("struct", some v)] => (Ty.recordOfValue v).map (record .struct)
  | .object [("exception", some v)] => (Ty.recordOfValue v).map (record .exception)
  | .object [("service", some v)] => (Service.ofValue v).map service
  | .object [("const", some v)] => (Constant.ofValue v).map constant
  | _ => none

instance : Document Definition := ⟨Part, grammar, .definition, toValue, ofValue⟩

end Definition

namespace Program

def toValue (p : Program) : Value :=
  recordValue programSlots
    [some p.info.toValue, some (.array (p.includes.map ProgramInfo.toValue)),
      some (.array (p.definitions.map Definition.toValue))]

def ofValue : Value → Option Program
  | .object [(_, some info), (_, some includes), (_, some definitions)] => do
    pure
      { info := ← ProgramInfo.ofValue info, includes := ← list? ProgramInfo.ofValue includes
        definitions := ← list? Definition.ofValue definitions }
  | _ => none

instance : Document Program := ⟨Part, grammar, .program, toValue, ofValue⟩

/-- Saves a program and loads it again. Saving writes out what a text may leave out, so a program
that was read at the limit of nesting can be too deep to load. -/
def reload (p : Program) : Except Fault Program := Document.ofText (Document.toIndentedText p)

/-- Whether two programs are the same, as far as saving shows. -/
def savedAlike (p q : Program) : Bool := Document.toText p == Document.toText q

end Program

end IdlGen
