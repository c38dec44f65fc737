import IdlGen.Lisp.Literal
import IdlGen.Lisp.Typespec

/-!
# Record declarations in Lisp

Records and throws clauses list their fields the same way: one entry per line, aligned under the
first.
-/

namespace IdlGen.Lisp

/-- The form that declares a record of some kind. -/
def declarator : RecordKind → String
  | .struct => "thrift:def-struct"
  | .exception => "thrift:def-exception"

def defaultValue (current : ProgramInfo) (f : Field) : Except EmitError Layout :=
  match f.default with
  | some value => literal current f.type value
  | none => .ok (.text "nil")

def fieldDoc (doc : Option String) : Layout :=
  match doc with
  | some doc => .text (" :documentation " ++ docLiteral doc)
  | none => .empty

/-- The entry of a field: name, default, type, id and documentation. -/
def fieldEntry (current : ProgramInfo) (f : Field) : Except EmitError Layout := do
  let value ← defaultValue current f
  pure
    (Layout.text ("(" ++ symbol f.name ++ " ") ++ value
      ++ Layout.text (" :type " ++ typespec current f.type ++ " :id " ++ integerText f.id.toInt)
      ++ fieldDoc f.doc ++ Layout.text ")")

/-- Entries in one pair of parentheses, each on its own line under the first. -/
def aligned (entries : List Layout) : Layout :=
  Layout.text "(" ++ Layout.align (Layout.join .line entries) ++ Layout.text ")"

def fieldList (current : ProgramInfo) (fields : List Field) : Except EmitError Layout :=
  (fields.mapM (fieldEntry current)).map aligned

/-- Documentation on a line of its own, if there is any. -/
def docLine (wrap : String → String) (doc : Option String) : Layout :=
  match doc with
  | some doc => Layout.line ++ Layout.text (wrap (docLiteral doc))
  | none => .empty

/-- The declaration of a record: documentation and fields, each on its own line below the name. -/
def recordForm (current : ProgramInfo) (kind : RecordKind) (d : Record) :
    Except EmitError Layout := do
  let fields ← fieldList current d.fields
  pure
    (Layout.text ("(" ++ declarator kind ++ " " ++ symbol (recordName d current))
      ++ Layout.indent (docLine id d.doc ++ Layout.line ++ fields) ++ Layout.text ")")

end IdlGen.Lisp
