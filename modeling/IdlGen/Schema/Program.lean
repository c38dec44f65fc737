import IdlGen.Schema.Service

/-!
# Programs

An interface definition: what the program is called, which programs it includes, and its
declarations in source order.
-/

namespace IdlGen

structure Constant where
  name : String
  type : Ty
  value : Literal
  doc : Option String := none

inductive Definition where
  | typedef (d : Typedef)
  | enum (d : EnumDef)
  | record (kind : RecordKind) (d : Record)
  | service (d : Service)
  | constant (d : Constant)

namespace Definition

def name : Definition → String
  | typedef d => d.name
  | enum d => d.name
  | record _ d => d.name
  | service d => d.name
  | constant d => d.name

/-- The keyword that introduces the declaration. -/
def keyword : Definition → String
  | typedef _ => "typedef"
  | enum _ => "enum"
  | record kind _ => kind.name
  | service _ => "service"
  | constant _ => "const"

end Definition

structure Program where
  info : ProgramInfo
  includes : List ProgramInfo := []
  definitions : List Definition := []

namespace Program

def name (p : Program) : String := p.info.name

/-- Includes another program, behind those included so far. -/
def including (p : Program) (info : ProgramInfo) : Program :=
  { p with includes := p.includes ++ [info] }

def define (p : Program) (d : Definition) : Program :=
  { p with definitions := p.definitions ++ [d] }

end Program

end IdlGen
