import IdlGen.Schema.Program
import IdlGen.Sink

/-!
# Backends

A backend turns a program into code, one step for each declaration between a first and a last step.
Steps act on the state of the run, which holds the two streams and whatever else a backend notes
down. A run makes the steps in source order and stops at the first that fails; what has been written
by then stays.
-/

namespace IdlGen

/-- A step of a run: it changes the state and may fail, keeping the change. -/
abbrev Step (σ : Type) := EStateM EmitError σ

/-- States that hold the two streams. -/
class Carrier (σ : Type) where
  /-- The state in which a run on these streams begins. -/
  ofSink : Sink → σ
  sink : σ → Sink
  withSink : σ → Sink → σ

instance : Carrier Sink := ⟨id, id, fun _ s => s⟩

/-- Lets the streams act inside a step. -/
def Step.onSink {σ : Type} [Carrier σ] (act : EStateM WriteError Sink Unit) :
    Step σ Unit := fun s =>
  match act (Carrier.sink s) with
  | .ok _ sink => .ok () (Carrier.withSink s sink)
  | .error e sink => .error (.write e) (Carrier.withSink s sink)

def Step.write {σ : Type} [Carrier σ] (stream : Stream) (form : Layout) : Step σ Unit :=
  onSink (Sink.writeForm stream form)

/-- A step that fails with an error that has come up before anything is written. -/
def Step.write? {σ : Type} [Carrier σ] (stream : Stream) (form : Except EmitError Layout) :
    Step σ Unit :=
  match form with
  | .ok form => write stream form
  | .error e => throw e

/-- What turns programs into code of some language. -/
structure Backend (σ : Type) [Carrier σ] where
  /-- The target language, as namespace declarations call it. -/
  language : String
  /-- The extension of its files, without the dot. -/
  extension : String
  /-- The directory of its files. -/
  directory : String := "gen-" ++ language
  start : Program → Step σ Unit
  typedef : Program → Typedef → Step σ Unit
  enum : Program → EnumDef → Step σ Unit
  record : Program → RecordKind → Record → Step σ Unit
  service : Program → Service → Step σ Unit
  constant : Program → Constant → Step σ Unit
  finish : Program → Step σ Unit := fun _ => Step.onSink Sink.flush

namespace Backend

variable {σ : Type} [Carrier σ]

def declaration (b : Backend σ) (p : Program) : Definition → Step σ Unit
  | .typedef d => b.typedef p d
  | .enum d => b.enum p d
  | .record kind d => b.record p kind d
  | .service d => b.service p d
  | .constant d => b.constant p d

def declarations (b : Backend σ) (p : Program) : List Definition → Step σ Unit
  | [] => pure ()
  | d :: more => do
    b.declaration p d
    b.declarations p more

def generate (b : Backend σ) (p : Program) : Step σ Unit := do
  b.start p
  b.declarations p p.definitions
  b.finish p

end Backend

end IdlGen
