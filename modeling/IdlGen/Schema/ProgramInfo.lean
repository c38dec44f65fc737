import IdlGen.Keyed

/-!
# Programs by name

What other programs know of a program: its name and the namespace it declares for each target
language.
-/

namespace IdlGen

structure ProgramInfo where
  name : String
  /-- Target language to namespace. -/
  namespaces : Keyed String := ∅
  deriving DecidableEq

namespace ProgramInfo

def withNamespace (info : ProgramInfo) (language ns : String) : ProgramInfo :=
  { info with namespaces := info.namespaces.insert language ns }

/-- The namespace declared for a language. An empty one counts as none. -/
def namespaceFor (info : ProgramInfo) (language : String) : Option String :=
  (info.namespaces.get? language).filter fun ns => ns ≠ ""

end ProgramInfo

end IdlGen
