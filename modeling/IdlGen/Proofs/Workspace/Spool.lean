import IdlGen.Proofs.Jobs
import IdlGen.Workspace.Spool

/-!
# Files that one stream goes to

What a spool has handed on and what still waits in it are, one behind the other, what it was given. This
holds from the beginning and after every request, so a file that belongs to one stream holds, once the
stream is closed, all that was written. In memory a stream holds the same.
-/

namespace IdlGen

/-- What requests bring to a stream, of which the latest comes first. -/
def writtenTo (stream : Stream) (requests : List (Stream × Request)) : List UInt8 :=
  (requests.reverse.filter fun r => r.1 = stream).flatMap fun r => Writer.added r.2

@[simp] theorem writtenTo_cons (stream : Stream) (r : Stream × Request)
    (requests : List (Stream × Request)) :
    writtenTo stream (r :: requests) =
      writtenTo stream requests ++ Sink.only r.1 (Writer.added r.2) stream := by
  rw [writtenTo, List.reverse_cons, List.filter_append, List.flatMap_append, ← writtenTo]
  congr 1
  by_cases h : r.1 = stream
  · simp [h]
  · rw [Sink.only_of_ne (Ne.symm h)]
    simp [h]

/-! ### In a file -/

namespace Spool

theorem overwrite_length (file bytes : List UInt8) : overwrite file file.length bytes = file ++ bytes := by
  rw [overwrite, List.take_length, List.drop_of_length_le (Nat.le_add_right _ _), List.append_nil]

/-- The file has all that was given to the spool but what waits, and goes on at its end. -/
structure Behind (s : Spool) (file given : List UInt8) : Prop where
  whole : file ++ s.waiting = given
  atEnd : s.position = file.length

variable {s : Spool} {file given : List UInt8}

theorem Behind.handOn (h : s.Behind file given) (hwaiting : s.waiting = []) (bytes : List UInt8) :
    (s.handOn bytes file).1.Behind (s.handOn bytes file).2 (given ++ bytes) := by
  have hfile : file = given := by rw [← h.whole, hwaiting, List.append_nil]
  have hbytes : (s.handOn bytes file).2 = file ++ bytes := by
    rw [Spool.handOn, h.atEnd, overwrite_length]
  refine ⟨?_, ?_⟩
  · rw [hbytes, hfile, Spool.handOn, hwaiting, List.append_nil]
  · rw [hbytes, List.length_append, Spool.handOn, h.atEnd]

theorem Behind.drain (h : s.Behind file given) :
    (s.drain file).1.Behind (s.drain file).2 given ∧ (s.drain file).1.waiting = [] := by
  have hempty : Behind { s with waiting := [] } file file := ⟨List.append_nil _, h.atEnd⟩
  have hdrained := hempty.handOn rfl s.waiting
  rw [h.whole] at hdrained
  exact ⟨hdrained, rfl⟩

theorem Behind.take (h : s.Behind file given) (bytes : List UInt8) :
    (s.take bytes file).1.Behind (s.take bytes file).2 (given ++ bytes) := by
  have hwait : ∀ {s : Spool} {file : List UInt8}, s.Behind file given →
      Behind { s with waiting := s.waiting ++ bytes } file (given ++ bytes) := by
    intro s file h
    exact ⟨by rw [← List.append_assoc, h.whole], h.atEnd⟩
  obtain ⟨hdrained, hempty⟩ := h.drain
  by_cases hroom : capacity < s.waiting.length + bytes.length
  · simp only [Spool.take, if_pos hroom]
    split
    · exact hdrained.handOn hempty bytes
    · exact hwait hdrained
  · simp only [Spool.take, if_neg hroom]
    split
    · -- The spool has room for bytes that would fill it only if nothing waits.
      rename_i hfull
      have hwaiting : s.waiting = [] := List.eq_nil_of_length_eq_zero (by omega)
      exact h.handOn hwaiting bytes
    · exact hwait h

theorem Behind.perform (h : s.Behind file given) (request : Request) :
    (s.perform file request).1.Behind (s.perform file request).2 (given ++ Writer.added request) := by
  cases request with
  | write bytes => exact h.take bytes
  | flush =>
    rw [Writer.added, List.append_nil]
    exact h.drain.1

end Spool

namespace SpooledFile

/-- Of the two spools only that of this stream has been given anything. -/
def GivenTo (stream : Stream) (f : SpooledFile) (given : List UInt8) : Prop :=
  match stream with
  | .types => f.types.Behind f.bytes given ∧ f.vars = {}
  | .vars => f.vars.Behind f.bytes given ∧ f.types = {}

variable {stream : Stream} {f : SpooledFile} {given : List UInt8}

theorem GivenTo.ask (h : f.GivenTo stream given) (request : Request) :
    (f.ask stream request).GivenTo stream (given ++ Writer.added request) := by
  cases stream with
  | types => exact ⟨h.1.perform request, h.2⟩
  | vars => exact ⟨h.1.perform request, h.2⟩

theorem GivenTo.close (h : f.GivenTo stream given) : f.close = given := by
  -- A spool that has been given nothing writes nothing when it is closed.
  have hidle : ∀ file : List UInt8, (({} : Spool).drain file).2 = file := fun file => rfl
  have hdrained : ∀ {s : Spool} {file : List UInt8}, s.Behind file given → (s.drain file).2 = given := by
    intro s file hs
    obtain ⟨hbehind, hempty⟩ := hs.drain
    rw [← hbehind.whole, hempty, List.append_nil]
  cases stream with
  | types =>
    obtain ⟨hbehind, hvars⟩ := h
    change (f.vars.drain (f.types.drain f.bytes).2).2 = given
    rw [hvars, hidle, hdrained hbehind]
  | vars =>
    obtain ⟨hbehind, htypes⟩ := h
    change (f.vars.drain (f.types.drain f.bytes).2).2 = given
    rw [htypes, hidle, hdrained hbehind]

/-- A file that only one stream goes to holds, once that is closed, all that the stream was given. -/
theorem contents_filter (stream : Stream) (requests : List (Stream × Request)) :
    contents (requests.filter fun r => r.1 = stream) = writtenTo stream requests := by
  suffices h : ((requests.filter fun r => r.1 = stream).foldr
      (fun (r : Stream × Request) (f : SpooledFile) => f.ask r.1 r.2) {}).GivenTo stream
        (writtenTo stream requests) from h.close
  induction requests with
  | nil => cases stream <;> exact ⟨⟨rfl, rfl⟩, rfl⟩
  | cons r requests ih =>
    rw [writtenTo_cons]
    by_cases h : r.1 = stream
    · subst h
      rw [Sink.only_self, List.filter_cons_of_pos (by simp)]
      exact ih.ask r.2
    · rw [Sink.only_of_ne (Ne.symm h), List.append_nil, List.filter_cons_of_neg (by simpa using h)]
      exact ih

end SpooledFile

/-! ### In memory -/

namespace Sink

/-- Both streams hold what has been asked of them. -/
def Recorded (s : Sink) : Prop :=
  s.InMemory ∧ ∀ stream, s.contents stream = writtenTo stream s.requests

theorem recorded_empty : ({} : Sink).Recorded := ⟨inMemory_empty, fun stream => by cases stream <;> rfl⟩

/-- A step that succeeds and keeps to that. -/
def Records (act : EStateM WriteError Sink Unit) : Prop :=
  ∀ s : Sink, s.Recorded → ∃ s', act s = .ok () s' ∧ s'.Recorded

theorem records_ask (stream : Stream) (request : Request) : Records (ask stream request) := by
  intro s hs
  obtain ⟨s', hrun, hmemory, hgain⟩ := adds_ask stream request s hs.1
  have hrequests := requests_ask stream request s
  rw [hrun, finalState] at hrequests
  refine ⟨s', hrun, hmemory, fun other => ?_⟩
  rw [hgain, hs.2, hrequests, writtenTo_cons]

theorem Records.andThen {first second : EStateM WriteError Sink Unit} (hfirst : Records first)
    (hsecond : Records second) : Records (first >>= fun _ => second) := by
  intro s hs
  obtain ⟨s', hrun, hs'⟩ := hfirst s hs
  rw [bind_of_ok hrun]
  exact hsecond s' hs'

theorem records_perform (job : Job) : Records job.perform := by
  cases job with
  | write stream form => exact (records_ask stream _).andThen (records_ask stream _)
  | flush => exact (records_ask .types _).andThen (records_ask .vars _)

theorem Recorded.performEach {s : Sink} (h : s.Recorded) (jobs : List Job) :
    (Job.performEach jobs s).Recorded := by
  induction jobs generalizing s with
  | nil => exact h
  | cons job jobs ih =>
    obtain ⟨s', hrun, hs'⟩ := records_perform job s h
    have hrest := ih hs'
    rwa [Job.performEach, List.foldl_cons, hrun]

end Sink

end IdlGen
