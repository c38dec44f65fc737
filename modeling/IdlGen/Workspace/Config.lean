import IdlGen.Json.Document
import IdlGen.Workspace.FileSystem

/-!
# Configuration

Where generated files go and which backend makes them. Both have defaults, so that a missing file
and an empty object mean the same.
-/

namespace IdlGen

open Json

structure Config where
  /-- The directory that holds the directories of the backends. -/
  outDir : String := "."
  generator : String := "cl"
  deriving DecidableEq

namespace Config

def withOutDir (c : Config) (outDir : String) : Config := { c with outDir }

def withGenerator (c : Config) (generator : String) : Config := { c with generator }

def slots : List (Slot Unit) :=
  [⟨"outDir", .text, .otherwise (.string ".")⟩,
    ⟨"generator", .text, .otherwise (.string "cl")⟩]

def toValue (c : Config) : Value :=
  recordValue slots [some (.string c.outDir), some (.string c.generator)]

def ofValue : Value → Option Config
  | .object [(_, some (.string outDir)), (_, some (.string generator))] =>
    some { outDir, generator }
  | _ => none

instance : Document Config := ⟨Unit, fun _ => .record slots, (), toValue, ofValue⟩

end Config

end IdlGen
