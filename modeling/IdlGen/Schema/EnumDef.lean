import IdlGen.Schema.ProgramInfo

/-!
# Enums

Labels are numbered from zero. A label may give its number itself, as a 32-bit word; those without
one count on from the label before. Counting is done in 64 bits and goes on past the 32-bit range.
-/

namespace IdlGen

structure EnumLabel where
  name : String
  value : Option Int32 := none
  deriving DecidableEq

structure EnumDef where
  name : String
  /-- The declaring program; a declaration without one is local. -/
  owner : Option ProgramInfo := none
  labels : List EnumLabel := []
  doc : Option String := none
  deriving DecidableEq

namespace EnumDef

def inProgram (d : EnumDef) (owner : ProgramInfo) : EnumDef := { d with owner := some owner }

def label (d : EnumDef) (name : String) (value : Option Int32) : EnumDef :=
  { d with labels := d.labels ++ [⟨name, value⟩] }

/-- Labels with their numbers, behind a label that has the number `last`. -/
def numberFrom (last : Int64) : List EnumLabel → List (String × Int64)
  | [] => []
  | l :: more =>
    let number := match l.value with
      | some given => given.toInt64
      | none => last + 1
    (l.name, number) :: numberFrom number more

/-- Every label with its number, in the order of declaration. -/
def numbering (d : EnumDef) : List (String × Int64) := numberFrom (-1) d.labels

end EnumDef

end IdlGen
