import IdlGen.Keyed

/-!
# Files

A file system is a set of directories and files around one directory, the root, where all paths
start. A path is walked from left to right: every component but the last must be a directory that
exists. A last component that is a name names something in the directory reached, while dots only
name a directory that is there already. Operations that fail change nothing.

The root has directories above it, of which nothing else is known. They are reached by two dots and
can be written to, but what they hold is not listed.
-/

namespace IdlGen

inductive FileError where
  | notFound
  | exists
  | notDirectory
  | isDirectory
  | nameTooLong
  /-- The path has a character that no name can have. -/
  | badName
  | notText
  deriving DecidableEq, Repr

def FileError.message : FileError → String
  | .notFound => "No such file or directory (os error 2)"
  | .exists => "File exists (os error 17)"
  | .notDirectory => "Not a directory (os error 20)"
  | .isDirectory => "Is a directory (os error 21)"
  | .nameTooLong => "File name too long (os error 36)"
  | .badName => "file name contained an unexpected NUL byte"
  | .notText => "stream did not contain valid UTF-8"

namespace Path

/-- A path behind another one. An absolute path stands alone. -/
def join (base more : String) : String :=
  if more.toList.head? = some '/' then more
  else if base = "" ∨ base.toList.getLast? = some '/' then base ++ more
  else base ++ "/" ++ more

def split : List Char → List (List Char)
  | [] => [[]]
  | c :: cs =>
    if c = '/' then [] :: split cs
    else
      match split cs with
      | [] => [[c]]
      | part :: parts => (c :: part) :: parts

/-- The components of a path. Slashes in a row count as one. -/
def components (path : String) : List String :=
  ((split path.toList).filter (!·.isEmpty)).map String.ofList

/-- Whether a component is no name: one dot stays in place and two go up. -/
def isDots (component : String) : Bool := component == "." || component == ".."

/-- The components of the directory that a path lies in, in reverse. Single dots do not count. -/
def parentsReversed (path : String) : List String :=
  ((components path).filter (· ≠ ".")).reverse.tail

/-- Whether a path ends in a slash, so that its last name must be that of a directory. -/
def endsInSlash (path : String) : Bool := path.toList.getLast? == some '/'

/-- The bytes that a component may have. -/
def nameLimit : Nat := 255

def pathLimit : Nat := 4095

def check (path : String) : Except FileError Unit :=
  if path.toList.contains '\x00' then .error .badName
  else if pathLimit < path.utf8ByteSize then .error .nameTooLong
  else .ok ()

end Path

inductive Node where
  | directory
  | file (bytes : List UInt8)
  deriving DecidableEq

structure FileSystem where
  /-- All nodes but the root and those above it, by the components of their paths from the root. The
  path of what lies outside the root begins with two dots for each step up. -/
  nodes : List (List String × Node) := []
  deriving DecidableEq

abbrev FileOp := EStateM FileError FileSystem

namespace FileSystem

/-- Whether a place is the root or lies on the way up from it. -/
def isAbove (place : List String) : Bool := place.all (· == "..")

def parent (place : List String) : List String :=
  if isAbove place then place ++ [".."] else place.dropLast

/-- The node at a place. The root and those above it are always there. -/
def get? (fs : FileSystem) (place : List String) : Option Node :=
  if isAbove place then some .directory else fs.nodes.lookup place

def put (fs : FileSystem) (place : List String) (node : Node) : FileSystem :=
  ⟨(place, node) :: fs.nodes.filter fun entry => entry.1 ≠ place⟩

def find (fs : FileSystem) (directory : List String) (name : String) :
    Except FileError (Option Node) :=
  if Path.nameLimit < name.utf8ByteSize then .error .nameTooLong
  else .ok (fs.get? (directory ++ [name]))

def walk (fs : FileSystem) (place : List String) : List String → Except FileError (List String)
  | [] => .ok place
  | c :: rest =>
    if c = "." then fs.walk place rest
    else if c = ".." then fs.walk (parent place) rest
    else
      match fs.find place c with
      | .error e => .error e
      | .ok none => .error .notFound
      | .ok (some (.file _)) => .error .notDirectory
      | .ok (some .directory) => fs.walk (place ++ [c]) rest

inductive Target where
  /-- A directory that is there, by dots. -/
  | dots
  /-- Whatever has this name in this directory. -/
  | named (directory : List String) (name : String)
  deriving DecidableEq

def locate (fs : FileSystem) (components : List String) : Except FileError Target :=
  match components.getLast? with
  | none => .ok .dots
  | some last => do
    let directory ← fs.walk [] components.dropLast
    pure (if Path.isDots last then .dots else .named directory last)

def locatePath (fs : FileSystem) (path : String) : Except FileError Target :=
  if path = "" then .error .notFound
  else do
    Path.check path
    fs.locate (Path.components path)

/-- Whether two paths give the same name in the same directory. -/
def sameFile (fs : FileSystem) (path other : String) : Bool :=
  match fs.locatePath path, fs.locatePath other with
  | .ok (.named directory name), .ok target => target = .named directory name
  | _, _ => false

/-- An operation that begins with a look at the files. -/
def looking {α : Type} (look : FileSystem → Except FileError α) : FileOp α := fun fs =>
  match look fs with
  | .ok a => .ok a fs
  | .error e => .error e fs

def contents (fs : FileSystem) (path : String) : Except FileError (List UInt8) := do
  match ← fs.locatePath path with
  | .dots => throw .isDirectory
  | .named directory name =>
    match ← fs.find directory name with
    | none => throw .notFound
    | some .directory => throw .isDirectory
    | some (.file bytes) => if Path.endsInSlash path then throw .notDirectory else pure bytes

def read (path : String) : FileOp (List UInt8) := looking (·.contents path)

/-- Writes a whole file, which is created if it is not there. -/
def write (path : String) (bytes : List UInt8) : FileOp Unit := do
  match ← looking (·.locatePath path) with
  | .dots => throw .isDirectory
  | .named directory name =>
    if Path.endsInSlash path then throw .isDirectory
    if (← looking (·.find directory name)) = some .directory then throw .isDirectory
    modify (·.put (directory ++ [name]) (.file bytes))

def makeDirectory (components : List String) : FileOp Unit := do
  match ← looking (·.locate components) with
  | .dots => throw .exists
  | .named directory name =>
    if (← looking (·.find directory name)).isSome then throw .exists
    modify (·.put (directory ++ [name]) .directory)

def isDirectory (fs : FileSystem) (components : List String) : Bool :=
  match fs.walk [] components with
  | .ok _ => true
  | .error _ => false

/-- Makes a directory, unless it is there already. -/
def ensureDirectory (components : List String) : FileOp Unit := do
  try makeDirectory components
  catch e => if (← get).isDirectory components then pure () else throw e

/-- Makes a directory, and first the one it lies in if that is missing. -/
def makeDirectoryIn (makeParent : FileOp Unit) (components : List String) : FileOp Unit := do
  try ensureDirectory components
  catch e =>
    if e = .notFound then do
      makeParent
      ensureDirectory components
    else throw e

/-- Makes a directory, given by its components in reverse, and those it lies in. -/
def makeDirectoriesReversed : List String → FileOp Unit
  | [] => pure ()
  | last :: parents =>
    makeDirectoryIn (makeDirectoriesReversed parents) (last :: parents).reverse

def makeDirectories (path : String) : FileOp Unit := do
  looking fun _ => Path.check path
  makeDirectoryIn (makeDirectoriesReversed (Path.parentsReversed path)) (Path.components path)

/-- Everything in the root, in the order of paths; the path of a directory ends in a slash. -/
def listing (fs : FileSystem) : List (String × Option (List UInt8)) :=
  let inside := fs.nodes.filter fun (place, _) => place.head? ≠ some ".."
  (Keyed.ofList (inside.map fun (place, node) =>
    match node with
    | .directory => ("/".intercalate place ++ "/", none)
    | .file bytes => ("/".intercalate place, some bytes))).entries

end FileSystem

end IdlGen
