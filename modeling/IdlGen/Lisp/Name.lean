import IdlGen.Schema.Program
import IdlGen.Text.Lowercase

/-!
# Names in Lisp

The declarations of a program live in a package. A name from a program of another package carries
that package in front. Names are written as strings, which Lisp takes for symbols; records have
theirs in lower case.
-/

namespace IdlGen.Lisp

/-- The target language, as namespace declarations call it. -/
def language : String := "cl"

/-- The package of programs that declare none. -/
def defaultPackage : String := "thrift-generated"

def packageOf (info : ProgramInfo) : String := (info.namespaceFor language).getD defaultPackage

/-- A name declared in a program, as another one refers to it. Without a declaring program the name
is local. Programs are told apart by name first and then by package. -/
def qualify (name : String) (owner : Option ProgramInfo) (current : ProgramInfo) : String :=
  match owner with
  | none => name
  | some owner =>
    if owner.name = current.name then name
    else if packageOf owner = packageOf current then name
    else packageOf owner ++ ":" ++ name

/-- A record's name in lower case, as the current program refers to it. -/
def recordName (d : Record) (current : ProgramInfo) : String :=
  qualify (Text.lowercase d.name) d.owner current

def serviceName (s : Service) (current : ProgramInfo) : String := qualify s.name s.owner current

def symbol (name : String) : String := "\"" ++ name ++ "\""

/-- How documentation keeps one character inside a string: a backslash is doubled, and a double
quote becomes a single one. -/
def docChar (c : Char) : List Char :=
  if c = '\\' then ['\\', '\\'] else if c = '"' then ['\''] else [c]

def docstring (doc : String) : String := String.ofList (doc.toList.flatMap docChar)

def docLiteral (doc : String) : String := "\"" ++ docstring doc ++ "\""

end IdlGen.Lisp
