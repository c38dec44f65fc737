import IdlGen.EmitError
import IdlGen.Layout
import IdlGen.Text.Utf8

/-!
# Output streams

A run writes two streams. A writer keeps what it has taken, may have room for a limited number of
bytes, and may refuse to flush. Text that does not fit fills the writer up and fails. What has been
asked of the writers is kept as well, because the order across the two streams is lost in their
contents.
-/

namespace IdlGen

/-- Which stream a form belongs to. -/
inductive Stream where
  | types
  | vars
  deriving DecidableEq

/-- What a writer can be asked to do. -/
inductive Request where
  | write (bytes : List UInt8)
  | flush
  deriving DecidableEq

structure Writer where
  contents : List UInt8 := []
  /-- The most bytes it takes in total. -/
  limit : Option Nat := none
  refusesFlush : Bool := false
  /-- How often it has been flushed. -/
  flushes : Nat := 0
  deriving DecidableEq

namespace Writer

/-- Takes the bytes that fit behind the contents, and fails unless all do. -/
def write (bytes : List UInt8) : EStateM WriteError Writer Unit := fun w =>
  match w.limit with
  | none => .ok () { w with contents := w.contents ++ bytes }
  | some limit =>
    let room := limit - w.contents.length
    let written := { w with contents := w.contents ++ bytes.take room }
    if bytes.length ≤ room then .ok () written else .error .full written

def flush : EStateM WriteError Writer Unit := fun w =>
  if w.refusesFlush then .error .flushRefused w else .ok () { w with flushes := w.flushes + 1 }

def perform : Request → EStateM WriteError Writer Unit
  | .write bytes => write bytes
  | .flush => flush

end Writer

structure Sink where
  types : Writer := {}
  vars : Writer := {}
  /-- What has been asked of the writers, the latest request first. -/
  requests : List (Stream × Request) := []
  deriving DecidableEq

namespace Sink

/-- Lets a writer act; the other one stays as it is. -/
def onWriter (stream : Stream) (act : EStateM WriteError Writer Unit) :
    EStateM WriteError Sink Unit := fun s =>
  match stream with
  | .types =>
    match act s.types with
    | .ok _ w => .ok () { s with types := w }
    | .error e w => .error e { s with types := w }
  | .vars =>
    match act s.vars with
    | .ok _ w => .ok () { s with vars := w }
    | .error e w => .error e { s with vars := w }

def ask (stream : Stream) (request : Request) : EStateM WriteError Sink Unit := do
  modify fun s => { s with requests := (stream, request) :: s.requests }
  onWriter stream (Writer.perform request)

/-- Writes a form and the blank line that ends it. -/
def writeForm (stream : Stream) (form : Layout) : EStateM WriteError Sink Unit := do
  ask stream (.write (Utf8.encode (form.print 0 {}).1))
  ask stream (.write (Utf8.encode ['\n', '\n']))

def flush : EStateM WriteError Sink Unit := do
  ask .types .flush
  ask .vars .flush

end Sink

end IdlGen
