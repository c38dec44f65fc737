import IdlGen.Proofs.Sink

/-!
# Streams with limited room

A writer with a limit keeps the beginning of what it is asked to write, as much as fits, and a write fails
exactly if it does not fit to its end. Neither the portions in which the bytes come nor earlier failures
make a difference. So the streams are determined by the limits and by all that has been asked of them:
`Truncated` says how, and every step preserves it, whether or not it fails.
-/

namespace IdlGen

/-! ### Writers -/

namespace Writer

/-- How writing bytes can go on a writer that takes them in portions: each time some of the first bytes
that are left, at least one of them, for as long as there is room. -/
inductive InPortions (limit : Nat) :
    Writer → List UInt8 → EStateM.Result WriteError Writer Unit → Prop where
  | done (w : Writer) : InPortions limit w [] (.ok () w)
  | portion {w : Writer} {part rest : List UInt8} {result : EStateM.Result WriteError Writer Unit}
      (hpart : part ≠ []) (hroom : w.contents.length + part.length ≤ limit)
      (hrest : InPortions limit { w with contents := w.contents ++ part } rest result) :
      InPortions limit w (part ++ rest) result
  | full {w : Writer} {bytes : List UInt8} (hbytes : bytes ≠ []) (hfull : limit ≤ w.contents.length) :
      InPortions limit w bytes (.error .full w)

/-- Filled up with what fits of the bytes. -/
def filledWith (bytes : List UInt8) (limit : Nat) (w : Writer) : Writer :=
  { w with contents := w.contents ++ bytes.take (limit - w.contents.length) }

/-- Takes that many bytes in total, can be flushed at any time, and holds what fits of the bytes asked. -/
structure Truncated (limit : Nat) (asked : List UInt8) (w : Writer) : Prop where
  limited : w.limit = some limit
  flushes : w.refusesFlush = false
  contents_eq : w.contents = asked.take limit

variable {w : Writer} {limit : Nat} {asked bytes : List UInt8}

theorem write_limited (hlimit : w.limit = some limit) (bytes : List UInt8) :
    write bytes w =
      if bytes.length ≤ limit - w.contents.length then .ok () (w.filledWith bytes limit)
      else .error .full (w.filledWith bytes limit) := by
  cases w
  cases hlimit
  rfl

theorem write_of_inPortions {result : EStateM.Result WriteError Writer Unit}
    (h : InPortions limit w bytes result) (hlimit : w.limit = some limit) :
    result = write bytes w := by
  induction h with
  | done w => simp [write_limited hlimit, filledWith]
  | @portion w part rest result hpart hroom hrest ih =>
    have htaken : part.take (limit - w.contents.length) = part :=
      List.take_of_length_le (by omega)
    have hfilled : filledWith rest limit { w with contents := w.contents ++ part } =
        w.filledWith (part ++ rest) limit := by
      simp only [filledWith, List.take_append, List.length_append, htaken, List.append_assoc,
        Nat.sub_sub]
    have hfits : rest.length ≤ limit - (w.contents ++ part).length ↔
        (part ++ rest).length ≤ limit - w.contents.length := by
      simp only [List.length_append]
      omega
    have hrestLimit : ({ w with contents := w.contents ++ part } : Writer).limit = some limit := hlimit
    rw [ih hrestLimit, write_limited hrestLimit, write_limited hlimit, hfilled]
    simp only [hfits]
  | @full w bytes hbytes hfull =>
    have hlength := List.length_pos_iff.2 hbytes
    rw [write_limited hlimit, if_neg (by omega)]
    simp [filledWith, Nat.sub_eq_zero_of_le hfull]

theorem inPortions_write (hlimit : w.limit = some limit) (bytes : List UInt8) :
    InPortions limit w bytes (write bytes w) := by
  rw [write_limited hlimit]
  by_cases hbytes : bytes = []
  · subst hbytes
    have hdone : InPortions limit w [] (.ok () w) := .done w
    simpa [filledWith] using hdone
  have hlength := List.length_pos_iff.2 hbytes
  rcases Nat.eq_zero_or_pos (limit - w.contents.length) with hnone | hsome
  · rw [if_neg (by omega)]
    simpa [filledWith, hnone] using InPortions.full hbytes (Nat.le_of_sub_eq_zero hnone)
  -- What fits goes in one portion.
  have hportion : ∀ result, InPortions limit (w.filledWith bytes limit)
      (bytes.drop (limit - w.contents.length)) result → InPortions limit w bytes result := by
    intro result hrest
    have hpart : bytes.take (limit - w.contents.length) ≠ [] := by
      rw [Ne, List.take_eq_nil_iff, not_or]
      exact ⟨by omega, hbytes⟩
    have hroom : w.contents.length + (bytes.take (limit - w.contents.length)).length ≤ limit := by
      rw [List.length_take]
      omega
    have hwhole := InPortions.portion hpart hroom hrest
    rwa [List.take_append_drop] at hwhole
  apply hportion
  split
  · rename_i hfits
    rw [List.drop_eq_nil_of_le hfits]
    exact .done _
  · rename_i hmore
    refine .full (by simpa using hmore) ?_
    simp only [filledWith, List.length_append, List.length_take]
    omega

/-- However the bytes are portioned, the writer ends as if they came at once. -/
theorem inPortions_iff (hlimit : w.limit = some limit) (bytes : List UInt8)
    (result : EStateM.Result WriteError Writer Unit) :
    InPortions limit w bytes result ↔ result = write bytes w := by
  constructor
  · intro h
    exact write_of_inPortions h hlimit
  · rintro rfl
    exact inPortions_write hlimit bytes

theorem contents_flush (w : Writer) : (finalState (flush w)).contents = w.contents := by
  unfold flush
  split <;> rfl

theorem Truncated.filledWith (h : w.Truncated limit asked) (bytes : List UInt8) :
    (w.filledWith bytes limit).Truncated limit (asked ++ bytes) where
  limited := h.limited
  flushes := h.flushes
  contents_eq := by
    have hroom : limit - (asked.take limit).length = limit - asked.length := by
      rw [List.length_take]
      omega
    rw [Writer.filledWith, h.contents_eq, List.take_append, hroom]

/-- A write succeeds if there is nothing to write or all that has been asked fits. -/
theorem Truncated.write (h : w.Truncated limit asked) (bytes : List UInt8) :
    ∃ w', w'.Truncated limit (asked ++ bytes) ∧
      ((Writer.write bytes w = .ok () w' ∧ (bytes = [] ∨ (asked ++ bytes).length ≤ limit)) ∨
        (Writer.write bytes w = .error .full w' ∧ limit < (asked ++ bytes).length)) := by
  refine ⟨_, h.filledWith bytes, ?_⟩
  rw [write_limited h.limited, h.contents_eq, List.length_take, List.length_append,
    ← List.length_eq_zero_iff]
  split
  · exact .inl ⟨rfl, by omega⟩
  · exact .inr ⟨rfl, by omega⟩

theorem Truncated.flush (h : w.Truncated limit asked) :
    ∃ w', w'.Truncated limit asked ∧ Writer.flush w = .ok () w' :=
  ⟨{ w with flushes := w.flushes + 1 }, ⟨h.limited, h.flushes, h.contents_eq⟩,
    by simp [Writer.flush, h.flushes]⟩

end Writer

/-! ### Sinks -/

namespace Sink

def writer (s : Sink) : Stream → Writer
  | .types => s.types
  | .vars => s.vars

def withWriter (s : Sink) (stream : Stream) (w : Writer) : Sink :=
  match stream with
  | .types => { s with types := w }
  | .vars => { s with vars := w }

/-- The stream of the latest request. -/
def latest? (s : Sink) : Option Stream := s.requests.head?.map (·.1)

/-- Empty streams with room for that many bytes. -/
def bounded (limit : Stream → Nat) : Sink where
  types := { limit := some (limit .types) }
  vars := { limit := some (limit .vars) }

/-- Each stream holds what fits of the bytes that it has been asked to write. -/
def Truncated (limit : Stream → Nat) (asked : Stream → List UInt8) (s : Sink) : Prop :=
  ∀ stream, (s.writer stream).Truncated (limit stream) (asked stream)

theorem contents_eq_writer (s : Sink) (stream : Stream) :
    s.contents stream = (s.writer stream).contents := by
  cases stream <;> rfl

theorem writer_withWriter (s : Sink) (stream other : Stream) (w : Writer) :
    (s.withWriter stream w).writer other = if other = stream then w else s.writer other := by
  cases stream <;> cases other <;> rfl

@[simp] theorem latest?_withWriter (s : Sink) (stream : Stream) (w : Writer) :
    (s.withWriter stream w).latest? = s.latest? := by
  cases stream <;> rfl

theorem onWriter_eq (stream : Stream) (act : EStateM WriteError Writer Unit) (s : Sink) :
    onWriter stream act s = match act (s.writer stream) with
      | .ok _ w => .ok () (s.withWriter stream w)
      | .error e w => .error e (s.withWriter stream w) := by
  cases stream <;> rfl

/-- A request is noted before a writer sees it. -/
def noted (s : Sink) (stream : Stream) (request : Request) : Sink :=
  { s with requests := (stream, request) :: s.requests }

@[simp] theorem writer_noted (s : Sink) (stream other : Stream) (request : Request) :
    (s.noted stream request).writer other = s.writer other := by
  cases other <;> rfl

theorem ask_eq (stream : Stream) (request : Request) (s : Sink) :
    ask stream request s = match Writer.perform request (s.writer stream) with
      | .ok _ w => .ok () ((s.noted stream request).withWriter stream w)
      | .error e w => .error e ((s.noted stream request).withWriter stream w) := by
  change onWriter stream (Writer.perform request) (s.noted stream request) = _
  rw [onWriter_eq, writer_noted]

theorem requests_ask (stream : Stream) (request : Request) (s : Sink) :
    (finalState (ask stream request s)).requests = (stream, request) :: s.requests := by
  rw [ask_eq]
  cases Writer.perform request (s.writer stream) <;> cases stream <;> rfl

/-- What has been asked before, and then these bytes on one stream. -/
def askedMore (asked : Stream → List UInt8) (stream : Stream) (bytes : List UInt8)
    (other : Stream) : List UInt8 :=
  asked other ++ only stream bytes other

variable {limit : Stream → Nat} {asked : Stream → List UInt8} {s : Sink} {stream : Stream}
  {bytes more : List UInt8}

@[simp] theorem askedMore_self : askedMore asked stream bytes stream = asked stream ++ bytes := by
  rw [askedMore, only_self]

theorem askedMore_of_ne {other : Stream} (hother : other ≠ stream) :
    askedMore asked stream bytes other = asked other := by
  rw [askedMore, only_of_ne hother, List.append_nil]

@[simp] theorem askedMore_nil : askedMore asked stream [] = asked := by
  funext other
  simp [askedMore, only]

theorem askedMore_append : askedMore asked stream (bytes ++ more) =
    askedMore (askedMore asked stream bytes) stream more := by
  funext other
  simp only [askedMore, List.append_assoc, only_append]

/-- If all fits and these bytes fit as well, then still all does. -/
theorem askedMore_fits (hfits : ∀ stream, (asked stream).length ≤ limit stream)
    (hroom : (asked stream ++ bytes).length ≤ limit stream) (other : Stream) :
    (askedMore asked stream bytes other).length ≤ limit other := by
  by_cases hother : other = stream
  · subst other
    rwa [askedMore_self]
  · rw [askedMore_of_ne hother]
    exact hfits other

theorem truncated_bounded (limit : Stream → Nat) : (bounded limit).Truncated limit fun _ => [] := by
  rintro (_ | _) <;> exact ⟨rfl, rfl, List.take_nil.symm⟩

theorem Truncated.contents_eq (h : s.Truncated limit asked) (stream : Stream) :
    s.contents stream = (asked stream).take (limit stream) := by
  rw [contents_eq_writer, (h stream).contents_eq]

theorem Truncated.congr {asked' : Stream → List UInt8} (h : s.Truncated limit asked)
    (hsame : ∀ stream, asked stream = asked' stream) : s.Truncated limit asked' := by
  rwa [funext hsame] at h

theorem Truncated.noted (h : s.Truncated limit asked) (stream : Stream) (request : Request) :
    (s.noted stream request).Truncated limit asked := by
  intro other
  rw [writer_noted]
  exact h other

theorem Truncated.withWriter (h : s.Truncated limit asked) {w : Writer}
    (hw : w.Truncated (limit stream) (asked stream ++ bytes)) :
    (s.withWriter stream w).Truncated limit (askedMore asked stream bytes) := by
  intro other
  rw [writer_withWriter]
  split
  · subst other
    rwa [askedMore_self]
  · rename_i hother
    rw [askedMore_of_ne hother]
    exact h other

/-! ### Steps on a sink -/

/-- How a step ends that asks one stream for more bytes: it succeeds if it asks for nothing or all fits
that has been asked of the stream, and otherwise fails on that stream for want of room. -/
inductive Ends (limit : Stream → Nat) (asked : Stream → List UInt8) (stream : Stream)
    (bytes : List UInt8) : EStateM.Result WriteError Sink Unit → Prop where
  | ok {s : Sink} (hs : s.Truncated limit (askedMore asked stream bytes))
      (hfits : bytes = [] ∨ (asked stream ++ bytes).length ≤ limit stream) :
      Ends limit asked stream bytes (.ok () s)
  | full {s : Sink} (hs : s.Truncated limit (askedMore asked stream bytes))
      (hmore : limit stream < (asked stream ++ bytes).length) (hlatest : s.latest? = some stream) :
      Ends limit asked stream bytes (.error .full s)

theorem Ends.truncated {result : EStateM.Result WriteError Sink Unit}
    (h : Ends limit asked stream bytes result) :
    (finalState result).Truncated limit (askedMore asked stream bytes) := by
  cases h with
  | ok hs => exact hs
  | full hs => exact hs

theorem Ends.fails_iff {result : EStateM.Result WriteError Sink Unit}
    (h : Ends limit asked stream bytes result) (hbytes : bytes ≠ []) :
    (∃ e s, result = .error e s) ↔ limit stream < (asked stream ++ bytes).length := by
  cases h with
  | ok hs hfits => simpa using hfits.resolve_left hbytes
  | full hs hmore => simpa using hmore

/-- What no longer fits is not missed further on. -/
theorem Truncated.askedMore_of_full (h : s.Truncated limit (askedMore asked stream bytes))
    (hfull : limit stream ≤ (asked stream ++ bytes).length) (more : List UInt8) :
    s.Truncated limit (askedMore asked stream (bytes ++ more)) := by
  intro other
  by_cases hother : other = stream
  · subst other
    have hw := h stream
    rw [askedMore_self] at hw ⊢
    refine ⟨hw.limited, hw.flushes, ?_⟩
    rw [hw.contents_eq, ← List.append_assoc, List.take_append_of_le_length hfull]
  · have hw := h other
    rw [askedMore_of_ne hother] at hw ⊢
    exact hw

theorem Truncated.ask (h : s.Truncated limit asked) (stream : Stream) (bytes : List UInt8) :
    Ends limit asked stream bytes (ask stream (.write bytes) s) := by
  obtain ⟨w, hw, hwrite⟩ := (h stream).write bytes
  have hs := (h.noted stream (.write bytes)).withWriter hw
  rw [ask_eq, Writer.perform]
  rcases hwrite with ⟨hwrite, hfits⟩ | ⟨hwrite, hmore⟩
  · rw [hwrite]
    exact .ok hs hfits
  · rw [hwrite]
    exact .full hs hmore (by rw [latest?_withWriter]; rfl)

/-- Behind bytes that fit, a step ends as if it had asked for these as well. -/
theorem Ends.behind {result : EStateM.Result WriteError Sink Unit}
    (h : Ends limit (askedMore asked stream bytes) stream more result)
    (hfits : bytes = [] ∨ (asked stream ++ bytes).length ≤ limit stream) :
    Ends limit asked stream (bytes ++ more) result := by
  cases h with
  | ok hs hfits' =>
    refine .ok (askedMore_append ▸ hs) ?_
    rcases hfits' with rfl | hfits'
    · rwa [List.append_nil]
    · rw [askedMore_self, List.append_assoc] at hfits'
      exact .inr hfits'
  | full hs hmore hlatest =>
    refine .full (askedMore_append ▸ hs) ?_ hlatest
    rwa [askedMore_self, List.append_assoc] at hmore

/-- Two steps that ask the same stream are one that asks for the bytes of both. -/
theorem Ends.andThen {first second : EStateM WriteError Sink Unit}
    (hfirst : Ends limit asked stream bytes (first s))
    (hsecond : ∀ s', s'.Truncated limit (askedMore asked stream bytes) →
      Ends limit (askedMore asked stream bytes) stream more (second s')) :
    Ends limit asked stream (bytes ++ more) ((first >>= fun _ => second) s) := by
  cases hrun : first s with
  | error e s' =>
    rw [bind_of_error hrun]
    rw [hrun] at hfirst
    cases hfirst with
    | full hs hmore hlatest =>
      refine .full (hs.askedMore_of_full (Nat.le_of_lt hmore) more) ?_ hlatest
      simp only [List.length_append] at hmore ⊢
      omega
  | ok a s' =>
    rw [bind_of_ok hrun]
    rw [hrun] at hfirst
    cases hfirst with
    | ok hs hfits => exact (hsecond s' hs).behind hfits

theorem Truncated.writeForm (h : s.Truncated limit asked) (stream : Stream) (form : Layout) :
    Ends limit asked stream form.bytes (writeForm stream form s) :=
  (h.ask stream _).andThen fun _ hs => hs.ask stream _

theorem Truncated.askFlush (h : s.Truncated limit asked) (stream : Stream) :
    ∃ s', s'.Truncated limit asked ∧ Sink.ask stream .flush s = .ok () s' := by
  obtain ⟨w, hw, hflush⟩ := (h stream).flush
  rw [← List.append_nil (asked stream)] at hw
  have hs := (h.noted stream .flush).withWriter hw
  rw [askedMore_nil] at hs
  exact ⟨_, hs, by rw [ask_eq, Writer.perform, hflush]⟩

theorem Truncated.flush (h : s.Truncated limit asked) :
    ∃ s', s'.Truncated limit asked ∧ Sink.flush s = .ok () s' := by
  obtain ⟨s₁, hs₁, htypes⟩ := h.askFlush .types
  obtain ⟨s₂, hs₂, hvars⟩ := hs₁.askFlush .vars
  refine ⟨s₂, hs₂, ?_⟩
  rw [Sink.flush, bind_of_ok htypes, hvars]

/-! ### Streams that a step leaves alone -/

/-- The stream holds the same after the step, whether or not that fails. -/
def Keeps (stream : Stream) (act : EStateM WriteError Sink Unit) : Prop :=
  ∀ s, (finalState (act s)).contents stream = s.contents stream

theorem Keeps.andThen {first second : EStateM WriteError Sink Unit} (hfirst : Keeps stream first)
    (hsecond : Keeps stream second) : Keeps stream (first >>= fun _ => second) := by
  intro s
  have hs := hfirst s
  cases hrun : first s with
  | ok a s' =>
    rw [hrun] at hs
    rw [bind_of_ok hrun, hsecond]
    exact hs
  | error e s' =>
    rw [hrun] at hs
    rw [bind_of_error hrun]
    exact hs

theorem contents_ask (s : Sink) (stream other : Stream) (request : Request) :
    (finalState (ask stream request s)).contents other =
      if other = stream then (finalState (Writer.perform request (s.writer stream))).contents
      else s.contents other := by
  rw [ask_eq]
  cases Writer.perform request (s.writer stream) <;>
    simp only [finalState, contents_eq_writer, writer_withWriter, writer_noted] <;> split <;> rfl

theorem keeps_ask_other {other : Stream} (hother : other ≠ stream) (request : Request) :
    Keeps other (ask stream request) := by
  intro s
  rw [contents_ask, if_neg hother]

theorem keeps_ask_flush (stream other : Stream) : Keeps other (ask stream .flush) := by
  intro s
  rw [contents_ask]
  split
  · subst other
    rw [Writer.perform, Writer.contents_flush, contents_eq_writer]
  · rfl

end Sink

end IdlGen
