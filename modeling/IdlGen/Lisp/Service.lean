import IdlGen.Lisp.Record

/-!
# Service declarations in Lisp

A service names its base and lists its methods. A method gives its arguments and its result by type,
its exceptions as a field list if it has any, and says whether it is oneway.
-/

namespace IdlGen.Lisp

/-- An argument: name, type and id. -/
def argument (current : ProgramInfo) (f : Field) : String :=
  "(" ++ symbol f.name ++ " " ++ typespec current f.type ++ " " ++ integerText f.id.toInt ++ ")"

def argumentList (current : ProgramInfo) (args : List Field) : String :=
  "(" ++ " ".intercalate (args.map (argument current)) ++ ")"

/-- The exceptions of a method, on a line of their own if there are any. -/
def exceptionsLine (current : ProgramInfo) (exceptions : List Field) : Except EmitError Layout :=
  if exceptions.isEmpty then .ok .empty
  else do
    let fields ← fieldList current exceptions
    pure (Layout.line ++ Layout.text " :exceptions " ++ fields)

def onewayLine (oneway : Bool) : Layout :=
  if oneway then Layout.line ++ Layout.text " :oneway t" else .empty

def methodClause (current : ProgramInfo) (m : Method) : Except EmitError Layout := do
  let exceptions ← exceptionsLine current m.exceptions
  pure
    (Layout.text ("(:method " ++ symbol m.name ++ " (" ++ argumentList current m.args ++ " "
        ++ typespec current m.returns ++ ")")
      ++ exceptions ++ onewayLine m.oneway ++ Layout.text ")")

def baseName (current : ProgramInfo) (base : Option Service) : String :=
  match base with
  | some s => symbol (serviceName s current)
  | none => "nil"

/-- The declaration of a service: documentation and methods, each on its own line below the name. -/
def serviceForm (current : ProgramInfo) (s : Service) : Except EmitError Layout := do
  let methods ← s.methods.mapM (methodClause current)
  pure
    (Layout.text ("(thrift:def-service " ++ symbol s.name ++ " " ++ baseName current s.base)
      ++ Layout.indent
        (docLine (fun doc => "(:documentation " ++ doc ++ ")") s.doc
          ++ Layout.concat (methods.flatMap fun clause => [Layout.line, clause]))
      ++ Layout.text ")")

end IdlGen.Lisp
