import IdlGen.Registry
import IdlGen.Workspace.Config
import IdlGen.Workspace.Report
import IdlGen.Workspace.Spool

/-!
# Generating files

A run of a backend makes two files, one per stream, in the backend's directory under an output root.
The files are made before the run and hold what it has written, even if it fails. A program's name
or an extension with slashes and dots can make the two paths meet in one file.
-/

namespace IdlGen

inductive BuildError where
  | unknownGenerator (id : String)
  | emit (error : EmitError)
  | file (path : String) (error : FileError)
  | config (fault : Json.Fault)
  deriving DecidableEq

/-- The text of an error, if the library words it. -/
def BuildError.message? : BuildError → Option String
  | .unknownGenerator id => some ("unknown generator \x60" ++ id ++ "\x60")
  | .emit error => some error.message
  | .file path error => some (path ++ ": " ++ error.message)
  | .config _ => none

abbrev Build := EStateM BuildError FileSystem

namespace Build

/-- An operation on the file at a path. -/
def onFile {α : Type} (path : String) (op : FileOp α) : Build α := fun fs =>
  match op fs with
  | .ok a fs => .ok a fs
  | .error e fs => .error (.file path e) fs

/-- Reads a configuration file. If there is none, the defaults hold. -/
def loadConfig (path : String) : Build Config := fun fs =>
  match FileSystem.read path fs with
  | .error .notFound fs => .ok {} fs
  | .error e fs => .error (.file path e) fs
  | .ok contents fs =>
    match Utf8.decode? contents with
    | none => .error (.file path .notText) fs
    | some text =>
      match Json.Document.ofText (String.ofList text) with
      | .ok config => .ok config fs
      | .error fault => .error (.config fault) fs

variable {σ : Type} [Carrier σ]

/-- The name of the file of a stream. -/
def fileName (b : Backend σ) (p : Program) (stream : Stream) : String :=
  p.name ++ "-" ++ stream.name ++ "." ++ b.extension

/-- The result of a run, and what it has written to each stream. -/
def runInMemory (b : Backend σ) (p : Program) : Except EmitError Unit × Sink :=
  match b.generate p (Carrier.ofSink {}) with
  | .ok _ s => (.ok (), Carrier.sink s)
  | .error e s => (.error e, Carrier.sink s)

/-- What the file of a stream holds after a run that has made these requests. It gets those of its
stream, and if both streams share it, all. -/
def fileContents (shared : Bool) (requests : List (Stream × Request)) (stream : Stream) :
    List UInt8 :=
  SpooledFile.contents (if shared then requests else requests.filter fun r => r.1 = stream)

/-- The report entry of a file, from its contents. -/
def describe (path : String) (stream : Stream) : Build ReportFile := do
  pure (.ofContents path stream (← onFile path (FileSystem.read path)))

/-- The directory of a backend's files under an output root. -/
def directoryPath (b : Backend σ) (root : String) : String := Path.join root b.directory

def filePath (b : Backend σ) (p : Program) (root : String) (stream : Stream) : String :=
  Path.join (directoryPath b root) (fileName b p stream)

/-- Makes the directory and both files. What the files held before is gone. -/
def prepare (b : Backend σ) (p : Program) (root : String) : Build Unit := do
  onFile (directoryPath b root) (FileSystem.makeDirectories (directoryPath b root))
  onFile (filePath b p root .types) (FileSystem.write (filePath b p root .types) [])
  onFile (filePath b p root .vars) (FileSystem.write (filePath b p root .vars) [])

/-- Generates the files of a program under an output root. Of its writers a backend learns no more than
whether a request has failed, and none fails once both files have been made. So the run is made in memory,
and what it has requested there is what is requested of the files. -/
def generateWith (b : Backend σ) (p : Program) (root : String) : Build Report := do
  prepare b p root
  let typesPath := filePath b p root .types
  let varsPath := filePath b p root .vars
  let shared := (← get).sameFile typesPath varsPath
  let (result, sink) := runInMemory b p
  onFile typesPath (FileSystem.write typesPath (fileContents shared sink.requests .types))
  onFile varsPath (FileSystem.write varsPath (fileContents shared sink.requests .vars))
  match result with
  | .error e => throw (.emit e)
  | .ok () =>
    let types ← describe typesPath .types
    let vars ← describe varsPath .vars
    pure ⟨b.language, p.name, [types, vars]⟩

def backend (registry : Registry σ) (id : String) : Build (Backend σ) :=
  match registry.backend? id with
  | some b => pure b
  | none => throw (.unknownGenerator id)

/-- Generates the files of a program as a configuration says. -/
def generate (registry : Registry σ) (p : Program) (config : Config) : Build Report := do
  generateWith (← backend registry config.generator) p config.outDir

end Build

end IdlGen
