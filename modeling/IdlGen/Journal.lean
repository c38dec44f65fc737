import IdlGen.Backend

/-!
# A backend that keeps a journal

It writes one line per step, which names the step and the declaration, and notes the line down once
it is written. It can be told to fail at a name, which it does after that.
-/

namespace IdlGen

/-- The streams of a run, and the lines noted so far. -/
structure Journal where
  streams : Sink := {}
  lines : List String := []

namespace Journal

instance : Carrier Journal := ⟨fun s => ⟨s, []⟩, streams, fun j s => { j with streams := s }⟩

def note (line : String) : Step Journal Unit := fun j =>
  .ok () { j with lines := j.lines ++ [line] }

/-- Writes the line of a step, notes it down, and fails at the name that is to fail. -/
def step (failAt : Option String) (stream : Stream) (keyword name : String) :
    Step Journal Unit := do
  let line := keyword ++ " " ++ name
  Step.write stream (.text line)
  note line
  if failAt = some name then throw (.unsupportedType name)

/-- The backend that keeps a journal. -/
def backend (language extension : String) (failAt : Option String) : Backend Journal where
  language
  extension
  start p := step failAt .types "init" p.name
  typedef _ d := step failAt .types "typedef" d.name
  enum _ d := step failAt .types "enum" d.name
  record _ kind d := step failAt .types kind.name d.name
  service _ d := step failAt .types "service" d.name
  constant _ d := step failAt .vars "const" d.name

end Journal

end IdlGen
