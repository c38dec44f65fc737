import IdlGen.Backend

/-!
# Streams in memory

A writer in memory takes everything and never refuses to flush. On two such writers no step that
only writes can fail, and all that matters of a step is what it adds to each stream. `Adds` says
that, and it is closed under doing one step after another, so what a run writes is read off its
steps.
-/

namespace IdlGen

/-- The bytes of a form and of the blank line that ends it. -/
def Layout.bytes (form : Layout) : List UInt8 :=
  Utf8.encode (form.print 0 {}).1 ++ Utf8.encode ['\n', '\n']

/-- A form ends in a blank line, so there is always something to write. -/
theorem Layout.bytes_ne_nil (form : Layout) : form.bytes ≠ [] :=
  List.append_ne_nil_of_right_ne_nil _ (by decide)

/-- The state in which a step ends, whether or not it fails. -/
def finalState {ε σ α : Type} : EStateM.Result ε σ α → σ
  | .ok _ s => s
  | .error _ s => s

section Bind

variable {ε σ α β : Type} {first : EStateM ε σ α} {next : α → EStateM ε σ β} {s s' : σ}

theorem bind_of_ok {a : α} (h : first s = .ok a s') : (first >>= next) s = next a s' := by
  change EStateM.bind first next s = _
  rw [EStateM.bind, h]

theorem bind_of_error {e : ε} (h : first s = .error e s') : (first >>= next) s = .error e s' := by
  change EStateM.bind first next s = _
  rw [EStateM.bind, h]

theorem ok_of_bind {b : β} (h : (first >>= next) s = .ok b s') :
    ∃ a t, first s = .ok a t ∧ next a t = .ok b s' := by
  cases hrun : first s with
  | ok a t => exact ⟨a, t, rfl, (bind_of_ok hrun).symm.trans h⟩
  | error e t => cases (bind_of_error hrun).symm.trans h

end Bind

/-- Takes everything, and can be flushed at any time. -/
def Writer.InMemory (w : Writer) : Prop := w.limit = none ∧ w.refusesFlush = false

/-! ### Writers -/

namespace Writer

theorem write_inMemory {w : Writer} (hw : w.InMemory) (bytes : List UInt8) :
    write bytes w = .ok () { w with contents := w.contents ++ bytes } := by
  simp only [write, hw.1]

theorem flush_inMemory {w : Writer} (hw : w.InMemory) :
    flush w = .ok () { w with flushes := w.flushes + 1 } := by
  simp [flush, hw.2]

/-- What a request adds to the contents. -/
def added : Request → List UInt8
  | .write bytes => bytes
  | .flush => []

theorem perform_inMemory {w : Writer} (hw : w.InMemory) (request : Request) :
    ∃ w', perform request w = .ok () w' ∧ w'.InMemory ∧
      w'.contents = w.contents ++ added request := by
  cases request with
  | write bytes => exact ⟨_, write_inMemory hw bytes, hw, rfl⟩
  | flush => exact ⟨_, flush_inMemory hw, hw, (List.append_nil _).symm⟩

end Writer

/-! ### Sinks -/

namespace Sink

/-- What a stream holds. -/
def contents (s : Sink) : Stream → List UInt8
  | .types => s.types.contents
  | .vars => s.vars.contents

/-- Both writers are in memory. -/
def InMemory (s : Sink) : Prop := s.types.InMemory ∧ s.vars.InMemory

theorem inMemory_empty : ({} : Sink).InMemory := ⟨⟨rfl, rfl⟩, ⟨rfl, rfl⟩⟩

@[simp] theorem contents_empty (stream : Stream) : ({} : Sink).contents stream = [] := by
  cases stream <;> rfl

/-- These bytes on one stream, and none on the other. -/
def only (stream : Stream) (bytes : List UInt8) (other : Stream) : List UInt8 :=
  if other = stream then bytes else []

@[simp] theorem only_self (stream : Stream) (bytes : List UInt8) :
    only stream bytes stream = bytes := if_pos rfl

theorem only_of_ne {stream other : Stream} (hother : other ≠ stream) (bytes : List UInt8) :
    only stream bytes other = [] := if_neg hother

/-- In memory the step succeeds, and each stream gains these bytes. -/
def Adds {ε : Type} (act : EStateM ε Sink Unit) (bytes : Stream → List UInt8) : Prop :=
  ∀ s : Sink, s.InMemory → ∃ s', act s = .ok () s' ∧ s'.InMemory ∧
    ∀ stream, s'.contents stream = s.contents stream ++ bytes stream

namespace Adds

variable {ε : Type} {first second : EStateM ε Sink Unit} {more less : Stream → List UInt8}

theorem nothing : Adds (pure () : EStateM ε Sink Unit) fun _ => [] := by
  intro s hs
  exact ⟨s, rfl, hs, fun stream => (List.append_nil _).symm⟩

/-- One step after another adds what both add. -/
theorem andThen (hfirst : Adds first less) (hsecond : Adds second more) :
    Adds (first >>= fun _ => second) fun stream => less stream ++ more stream := by
  intro s hs
  obtain ⟨s₁, hrun₁, hs₁, hgain₁⟩ := hfirst s hs
  obtain ⟨s₂, hrun₂, hs₂, hgain₂⟩ := hsecond s₁ hs₁
  refine ⟨s₂, ?_, hs₂, fun stream => ?_⟩
  · rw [bind_of_ok hrun₁, hrun₂]
  · rw [hgain₂, hgain₁, List.append_assoc]

theorem congr (hfirst : Adds first less) (hsame : ∀ stream, less stream = more stream) :
    Adds first more := by
  rwa [funext hsame] at hfirst

end Adds

theorem adds_onWriter (stream : Stream) (request : Request) :
    Adds (onWriter stream (Writer.perform request)) (only stream (Writer.added request)) := by
  intro s hs
  cases stream with
  | types =>
    obtain ⟨w, hrun, hw, hgain⟩ := Writer.perform_inMemory hs.1 request
    refine ⟨{ s with types := w }, by simp only [onWriter, hrun], ⟨hw, hs.2⟩, ?_⟩
    rintro (_ | _)
    · exact hgain
    · exact (List.append_nil _).symm
  | vars =>
    obtain ⟨w, hrun, hw, hgain⟩ := Writer.perform_inMemory hs.2 request
    refine ⟨{ s with vars := w }, by simp only [onWriter, hrun], ⟨hs.1, hw⟩, ?_⟩
    rintro (_ | _)
    · exact (List.append_nil _).symm
    · exact hgain

theorem adds_ask (stream : Stream) (request : Request) :
    Adds (ask stream request) (only stream (Writer.added request)) := by
  intro s hs
  -- The list of requests grows first, which neither writer notices.
  exact adds_onWriter stream request { s with requests := (stream, request) :: s.requests } hs

theorem only_append (stream : Stream) (a b : List UInt8) (other : Stream) :
    only stream a other ++ only stream b other = only stream (a ++ b) other := by
  unfold only
  split <;> rfl

theorem adds_writeForm (stream : Stream) (form : Layout) :
    Adds (writeForm stream form) (only stream form.bytes) :=
  ((adds_ask stream _).andThen (adds_ask stream _)).congr fun other =>
    only_append stream _ _ other

theorem adds_flush : Adds flush fun _ => [] :=
  ((adds_ask .types .flush).andThen (adds_ask .vars .flush)).congr fun stream => by
    cases stream <;> rfl

/-- Inside a step of a run on the bare streams, the streams act as they do by themselves. -/
theorem adds_onSink {act : EStateM WriteError Sink Unit} {bytes : Stream → List UInt8}
    (hact : Adds act bytes) : Adds (Step.onSink act) bytes := by
  intro s hs
  obtain ⟨s', hrun, hs', hgain⟩ := hact s hs
  refine ⟨s', ?_, hs', hgain⟩
  simp only [Step.onSink, Carrier.sink, Carrier.withSink, id, hrun]

theorem adds_write (stream : Stream) (form : Layout) :
    Adds (Step.write stream form) (only stream form.bytes) :=
  adds_onSink (adds_writeForm stream form)

end Sink

end IdlGen
