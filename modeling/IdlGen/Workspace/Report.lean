import IdlGen.Json.Document
import IdlGen.Sink
import IdlGen.Workspace.Sha256

/-!
# Reports

What a successful run has made: the files with their sizes and digests.
-/

namespace IdlGen

open Json

/-- The name of a stream in file names and reports. -/
def Stream.name : Stream → String
  | .types => "types"
  | .vars => "vars"

structure ReportFile where
  path : String
  stream : Stream
  bytes : UInt64
  sha256 : String
  deriving DecidableEq

structure Report where
  generator : String
  program : String
  files : List ReportFile
  deriving DecidableEq

namespace Report

inductive Part where
  | report
  | file
  | stream

def reportSlots : List (Slot Part) :=
  [⟨"generator", .text, .required⟩, ⟨"program", .text, .required⟩,
    ⟨"files", .list (.named .file), .required⟩]

def fileSlots : List (Slot Part) :=
  [⟨"path", .text, .required⟩, ⟨"kind", .named .stream, .required⟩,
    ⟨"bytes", .integer 0 18446744073709551615, .required⟩, ⟨"sha256", .text, .required⟩]

def grammar : Part → Body Part
  | .report => .record reportSlots
  | .file => .record fileSlots
  | .stream => .choice [("types", none), ("vars", none)]

end Report

namespace ReportFile

def ofContents (path : String) (stream : Stream) (contents : List UInt8) : ReportFile :=
  ⟨path, stream, UInt64.ofNat contents.length, Sha256.hexDigest contents⟩

def toValue (f : ReportFile) : Value :=
  recordValue Report.fileSlots
    [some (.string f.path), some (.string f.stream.name), some (.integer f.bytes.toNat),
      some (.string f.sha256)]

def streamOf : String → Option Stream
  | "types" => some .types
  | "vars" => some .vars
  | _ => none

def ofValue : Value → Option ReportFile
  | .object [(_, some (.string path)), (_, some (.string stream)), (_, some (.integer bytes)),
      (_, some (.string sha256))] => do
    pure { path, stream := ← streamOf stream, bytes := UInt64.ofNat bytes.toNat, sha256 }
  | _ => none

instance : Document ReportFile := ⟨Report.Part, Report.grammar, .file, toValue, ofValue⟩

end ReportFile

namespace Report

def toValue (r : Report) : Value :=
  recordValue reportSlots
    [some (.string r.generator), some (.string r.program),
      some (.array (r.files.map ReportFile.toValue))]

def ofValue : Value → Option Report
  | .object
      [(_, some (.string generator)), (_, some (.string program)), (_, some (.array files))] => do
    pure { generator, program, files := ← files.mapM ReportFile.ofValue }
  | _ => none

instance : Document Report := ⟨Part, grammar, .report, toValue, ofValue⟩

end Report

end IdlGen
