import IdlGen.Lisp.Name

/-!
# Reading Lisp

Enough of a Lisp reader to say what a generated text means: comments from a semicolon to the end of
the line, parentheses, strings between double quotes in which a backslash takes the next character as
it is, quote marks, and atoms. It reads one character at a time and keeps the lists that are still
open on a stack.

An atom ends where the next character cannot belong to it, so at the end of a piece of text an atom
may be unfinished. `settle` finishes it, and whatever starts with a character that cannot belong to
an atom reads the same from the settled state (`run_settle`). That is what lets pieces of text be
read one by one.
-/

namespace IdlGen.Lisp

/-- A form, as Lisp reads it. -/
inductive Sexp where
  | atom (name : String)
  | string (text : String)
  | quoted (form : Sexp)
  | list (items : List Sexp)

namespace Reader

/-- What the next character belongs to. Characters read so far stand with the latest one first. -/
inductive Mode where
  | between
  | comment
  | atom (soFar : List Char)
  | string (soFar : List Char)
  /-- Inside a string, behind a backslash. -/
  | escape (soFar : List Char)

/-- A list that is still open, or the text as a whole: its forms, the latest one first, and how many
quote marks wait for the next form. -/
structure Level where
  forms : List Sexp := []
  quotes : Nat := 0

structure State where
  mode : Mode := .between
  level : Level := {}
  /-- The levels around, the closest one first. -/
  outer : List Level := []

def isBlank (c : Char) : Bool := c == ' ' || c == '\n' || c == '\t' || c == '\r' || c == '\x0C'

/-- The characters of the names that are declared. -/
def isNameChar (c : Char) : Bool := c.isAlphanum || c == '_' || c == '.' || c == '-'

/-- The characters of atoms. A colon stands behind a package or in front of a keyword. -/
def isAtomChar (c : Char) : Bool := isNameChar c || c == ':'

/-- A form behind quote marks. -/
def quoteTimes : Nat → Sexp → Sexp
  | 0, form => form
  | n + 1, form => .quoted (quoteTimes n form)

def Level.add (l : Level) (form : Sexp) : Level := ⟨quoteTimes l.quotes form :: l.forms, 0⟩

namespace State

def add (s : State) (form : Sexp) : State := { s with level := s.level.add form }

def addAll (s : State) (forms : List Sexp) : State := forms.foldl add s

/-- Behind an opening parenthesis. -/
def opened (s : State) : State := { s with level := {}, outer := s.level :: s.outer }

/-- Behind a closing parenthesis, if a list is open and no quote mark waits in it. -/
def closed (s : State) : Option State :=
  match s.level.quotes, s.outer with
  | 0, level :: outer =>
    some { s with level := level.add (.list s.level.forms.reverse), outer }
  | _, _ => none

/-- Behind a quote mark. -/
def quoteMark (s : State) : State :=
  { s with level := { s.level with quotes := s.level.quotes + 1 } }

/-- Finishes an atom. -/
def settle (s : State) : State :=
  match s.mode with
  | .atom soFar => { s with mode := .between }.add (.atom (String.ofList soFar.reverse))
  | _ => s

end State

/-- Takes a character between forms. -/
def stepBetween (s : State) (c : Char) : Option State :=
  if isBlank c then some s
  else if isAtomChar c then some { s with mode := .atom [c] }
  else if c = '(' then some s.opened
  else if c = ')' then s.closed
  else if c = '"' then some { s with mode := .string [] }
  else if c = ';' then some { s with mode := .comment }
  else if c = '\'' then some s.quoteMark
  else none

/-- Takes a character. -/
def step (s : State) (c : Char) : Option State :=
  match s.mode with
  | .between => stepBetween s c
  | .comment => some (if c = '\n' then { s with mode := .between } else s)
  | .atom soFar =>
    if isAtomChar c then some { s with mode := .atom (c :: soFar) } else stepBetween s.settle c
  | .string soFar =>
    if c = '"' then some ({ s with mode := .between }.add (.string (String.ofList soFar.reverse)))
    else if c = '\\' then some { s with mode := .escape soFar }
    else some { s with mode := .string (c :: soFar) }
  | .escape soFar => some { s with mode := .string (c :: soFar) }

/-- Takes a text. -/
def run : List Char → State → Option State
  | [], s => some s
  | c :: cs, s => (step s c).bind (run cs)

/-- The forms, if the text may end here. -/
def finish (s : State) : Option (List Sexp) :=
  let s := s.settle
  match s.mode, s.level.quotes, s.outer with
  | .between, 0, [] => some s.level.forms.reverse
  | .comment, 0, [] => some s.level.forms.reverse
  | _, _, _ => none

/-- The forms of a text that can be read to its end. -/
def read (text : List Char) : Option (List Sexp) := (run text {}).bind finish

/-! ### Running -/

@[simp] theorem run_nil (s : State) : run [] s = some s := rfl

theorem run_cons (c : Char) (cs : List Char) (s : State) :
    run (c :: cs) s = (step s c).bind (run cs) := rfl

theorem run_append (as bs : List Char) (s : State) :
    run (as ++ bs) s = (run as s).bind (run bs) := by
  induction as generalizing s with
  | nil => rfl
  | cons c as ih =>
    simp only [List.cons_append, run_cons, Option.bind_assoc]
    exact congrArg _ (funext ih)

/-! ### Settled states -/

theorem State.settle_between {s : State} (hs : s.mode = .between) : s.settle = s := by
  simp only [settle, hs]

theorem step_settle {c : Char} (hc : isAtomChar c = false) (s : State) :
    step s.settle c = step s c := by
  obtain ⟨mode, level, outer⟩ := s
  cases mode with
  | atom soFar =>
    change stepBetween _ c = if isAtomChar c then _ else _
    rw [hc]
    rfl
  | _ => rfl

/-- What starts with a character that cannot belong to an atom reads the same behind an unfinished
one. -/
theorem run_settle {c : Char} (hc : isAtomChar c = false) (cs : List Char) (s : State) :
    run (c :: cs) s.settle = run (c :: cs) s := by
  rw [run_cons, run_cons, step_settle hc]

theorem State.settle_settle (s : State) : s.settle.settle = s.settle := by
  obtain ⟨mode, level, outer⟩ := s
  cases mode <;> rfl

theorem finish_settle (s : State) : finish s.settle = finish s := by
  simp only [finish, State.settle_settle]

/-! ### Adding forms -/

namespace State

@[simp] theorem mode_add (s : State) (form : Sexp) : (s.add form).mode = s.mode := rfl

@[simp] theorem addAll_nil (s : State) : s.addAll [] = s := rfl

@[simp] theorem addAll_cons (s : State) (form : Sexp) (forms : List Sexp) :
    s.addAll (form :: forms) = (s.add form).addAll forms := rfl

theorem addAll_append (s : State) (as bs : List Sexp) :
    s.addAll (as ++ bs) = (s.addAll as).addAll bs := List.foldl_append

@[simp] theorem mode_addAll (s : State) (forms : List Sexp) : (s.addAll forms).mode = s.mode := by
  induction forms generalizing s with
  | nil => rfl
  | cons form forms ih => rw [addAll_cons, ih, mode_add]

@[simp] theorem mode_opened (s : State) : s.opened.mode = s.mode := rfl

/-- Where no quote mark waits, forms are added as they are. -/
theorem addAll_plain (s : State) (hs : s.level.quotes = 0) (forms : List Sexp) :
    s.addAll forms = { s with level := ⟨forms.reverse ++ s.level.forms, 0⟩ } := by
  induction forms generalizing s with
  | nil =>
    obtain ⟨mode, ⟨forms, quotes⟩, outer⟩ := s
    obtain rfl : quotes = 0 := hs
    rfl
  | cons form forms ih =>
    rw [addAll_cons, ih _ rfl]
    simp [add, Level.add, hs, quoteTimes]

theorem closed_opened (s : State) (forms : List Sexp) :
    (s.opened.addAll forms).closed = some (s.add (.list forms)) := by
  rw [addAll_plain _ rfl]
  simp [opened, closed, add]

end State

theorem finish_addAll (forms : List Sexp) : finish (({} : State).addAll forms) = some forms := by
  rw [State.addAll_plain _ rfl]
  simp [finish, State.settle]

end Reader

end IdlGen.Lisp
