/-!
# Why code cannot be emitted
-/

namespace IdlGen

inductive WriteError where
  | full
  | flushRefused
  deriving DecidableEq, Repr

def WriteError.message : WriteError → String
  | .full => "disk full"
  | .flushRefused => "flush refused"

/-- The first error ends a run. -/
inductive EmitError where
  /-- No constant can have this type. -/
  | unsupportedType (type : String)
  /-- A literal does not have the form that its type calls for. -/
  | literalShape (expected found : String)
  /-- The literal of a record names a field that the record does not have. -/
  | unknownField (record field : String)
  | write (cause : WriteError)
  deriving DecidableEq, Repr

def EmitError.message : EmitError → String
  | .unsupportedType type => "unsupported type: " ++ type
  | .literalShape expected found =>
    "constant shape mismatch: expected " ++ expected ++ " literal, found " ++ found
  | .unknownField record field => "type error: " ++ record ++ " has no field " ++ field
  | .write cause => "write failed: " ++ cause.message

end IdlGen
