import IdlGen.Backend
import IdlGen.Lisp.Service

/-!
# The Lisp backend

Both streams begin with a header that names the package. The stream of types also declares the
package, with the packages of the included programs, and then holds enums, records and services; the
stream of variables holds the constants. Typedefs are resolved where they are used and leave nothing
behind.
-/

namespace IdlGen.Lisp

def header (package : String) : Layout :=
  Layout.join .line
    [.text (";;; -*- Package: " ++ package ++ " -*-"), .text ";;;",
      .text ";;; Autogenerated by Thrift",
      .text ";;; DO NOT EDIT UNLESS YOU ARE SURE THAT YOU KNOW WHAT YOU ARE DOING"]

/-- The packages that a program uses: those of the included programs in their order, each once and
without its own. -/
def usedPackages (own : String) (includes : List ProgramInfo) : List String :=
  includes.foldl
    (fun used info =>
      let package := packageOf info
      if package ≠ own ∧ package ∉ used then used ++ [package] else used)
    []

def packageForm (p : Program) : Layout :=
  let package := packageOf p.info
  let used := usedPackages package p.includes
  if used.isEmpty then .text ("(thrift:def-package :" ++ package ++ ")")
  else
    .text ("(thrift:def-package :" ++ package ++ " :use ("
      ++ " ".intercalate (used.map fun other => ":" ++ other) ++ "))")

def inPackageForm (package : String) : Layout := .text ("(in-package :" ++ package ++ ")")

def labelPair (label : String × Int64) : Layout :=
  .text ("(" ++ symbol label.1 ++ " . " ++ integerText label.2.toInt ++ ")")

def enumForm (d : EnumDef) : Layout :=
  Layout.text ("(thrift:def-enum " ++ symbol d.name)
    ++ Layout.indent (Layout.line ++ aligned (d.numbering.map labelPair)) ++ Layout.text ")"

def constantForm (current : ProgramInfo) (c : Constant) : Except EmitError Layout := do
  let value ← literal current c.type c.value
  pure (Layout.text ("(thrift:def-constant " ++ symbol c.name ++ " ") ++ value ++ Layout.text ")")

variable {σ : Type} [Carrier σ]

/-- Writes the beginnings of both files. -/
def startFiles (p : Program) : Step σ Unit := do
  let package := packageOf p.info
  Step.write .types (header package)
  Step.write .types (packageForm p)
  Step.write .types (inPackageForm package)
  Step.write .vars (header package)
  Step.write .vars (inPackageForm package)

def backend : Backend σ where
  language := language
  extension := "lisp"
  start := startFiles
  typedef _ _ := pure ()
  enum _ d := Step.write .types (enumForm d)
  record p kind d := Step.write? .types (recordForm p.info kind d)
  service p d := Step.write? .types (serviceForm p.info d)
  constant p d := Step.write? .vars (constantForm p.info d)

end IdlGen.Lisp
