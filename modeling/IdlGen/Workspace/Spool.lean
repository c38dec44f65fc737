import IdlGen.Sink

/-!
# Spooling streams to a file

On its way to a file a stream passes a spool. It gathers bytes until there is no room for more and
then hands them on, behind those it has handed on before. A file that belongs to one stream alone
thus holds the stream. Two streams can also be sent to the same file. Neither knows of the other, so
both begin at the start of the file, and a byte that comes later replaces one that is already there.
-/

namespace IdlGen

/-- The contents of a file after bytes have been written to it at a position within it. -/
def overwrite (file : List UInt8) (position : Nat) (bytes : List UInt8) : List UInt8 :=
  file.take position ++ bytes ++ file.drop (position + bytes.length)

/-- A stream on its way to a file. -/
structure Spool where
  /-- The bytes that have not been handed on. -/
  waiting : List UInt8 := []
  position : Nat := 0
  deriving DecidableEq

namespace Spool

def capacity : Nat := 8192

/-- Hands bytes on to the file, when none are waiting. -/
def handOn (s : Spool) (bytes file : List UInt8) : Spool × List UInt8 :=
  ({ s with position := s.position + bytes.length }, overwrite file s.position bytes)

def drain (s : Spool) (file : List UInt8) : Spool × List UInt8 :=
  handOn { s with waiting := [] } s.waiting file

/-- Takes bytes. Those for which there is no room make the others leave, and bytes that would fill
the spool do not wait. -/
def take (s : Spool) (bytes file : List UInt8) : Spool × List UInt8 :=
  let (s, file) := if capacity < s.waiting.length + bytes.length then s.drain file else (s, file)
  if capacity ≤ bytes.length then s.handOn bytes file
  else ({ s with waiting := s.waiting ++ bytes }, file)

/-- Does what is asked of the stream. -/
def perform (s : Spool) (file : List UInt8) : Request → Spool × List UInt8
  | .write bytes => s.take bytes file
  | .flush => s.drain file

end Spool

/-- A file that either stream or both go to. -/
structure SpooledFile where
  bytes : List UInt8 := []
  types : Spool := {}
  vars : Spool := {}
  deriving DecidableEq

namespace SpooledFile

/-- Does what is asked of a stream. -/
def ask (f : SpooledFile) (stream : Stream) (request : Request) : SpooledFile :=
  match stream with
  | .types =>
    let (types, bytes) := f.types.perform f.bytes request
    { f with types, bytes }
  | .vars =>
    let (vars, bytes) := f.vars.perform f.bytes request
    { f with vars, bytes }

/-- The contents once both streams are closed, types first. -/
def close (f : SpooledFile) : List UInt8 := ((f.ask .types .flush).ask .vars .flush).bytes

/-- The contents of a new file after all requests, of which the latest comes first. -/
def contents (requests : List (Stream × Request)) : List UInt8 :=
  (requests.foldr (fun request f => ask f request.1 request.2) {}).close

end SpooledFile

end IdlGen
