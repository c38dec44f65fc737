import IdlGen.Text.Utf8

/-!
# String literals

Writing escapes the quote, the backslash and the control characters below the blank. Reading knows
all escapes of JSON. It goes in two steps: a literal is cut into characters and 16-bit units, one
character of the text at a time, and then the units that are halves of surrogate pairs are joined.
A literal in which a half lacks its partner has no text: it is refused where a text is wanted and
passed over where the value is ignored, so a reading carries both outcomes.

Reading goes through a text from left to right and stops at the first problem, which is one of three
kinds.
-/

namespace IdlGen.Json

/-- The kind of the first problem in a text. -/
inductive Fault where
  /-- The text ends before the document does. -/
  | truncated
  /-- The text is not JSON here. -/
  | malformed
  /-- The text is JSON, but not of the shape that belongs here. -/
  | mismatched
  deriving DecidableEq, Repr

namespace Quoted

/-! ## Writing -/

def hexDigit (n : Nat) : Char := Nat.digitChar (n % 16)

def escape (c : Char) : List Char :=
  if c = '"' then ['\\', '"']
  else if c = '\\' then ['\\', '\\']
  else if c = '\x08' then ['\\', 'b']
  else if c = '\x0C' then ['\\', 'f']
  else if c = '\n' then ['\\', 'n']
  else if c = '\r' then ['\\', 'r']
  else if c = '\t' then ['\\', 't']
  else if c.toNat < 0x20 then ['\\', 'u', '0', '0', hexDigit (c.toNat / 16), hexDigit c.toNat]
  else [c]

def write (s : List Char) : List Char := '"' :: s.flatMap escape ++ ['"']

/-! ## Cutting a literal into pieces -/

def hexValue? (c : Char) : Option Nat :=
  if '0' ≤ c ∧ c ≤ '9' then some (c.toNat - '0'.toNat)
  else if 'a' ≤ c ∧ c ≤ 'f' then some (c.toNat - 'a'.toNat + 10)
  else if 'A' ≤ c ∧ c ≤ 'F' then some (c.toNat - 'A'.toNat + 10)
  else none

def letterEscape? (c : Char) : Option Char :=
  if c = '"' then some '"'
  else if c = '\\' then some '\\'
  else if c = '/' then some '/'
  else if c = 'b' then some '\x08'
  else if c = 'f' then some '\x0C'
  else if c = 'n' then some '\n'
  else if c = 'r' then some '\r'
  else if c = 't' then some '\t'
  else none

inductive Piece where
  /-- A character, as it is or escaped by a letter. -/
  | char (c : Char)
  /-- A 16-bit unit, escaped by its number. -/
  | unit (n : Nat)
  deriving DecidableEq

inductive Ending where
  /-- With its closing quote; what comes behind it. -/
  | closed (rest : List Char)
  | broken (fault : Fault)
  deriving DecidableEq

inductive Place where
  | plain
  | escape
  /-- Inside the number of a unit, behind `count` digits that spell `value`. -/
  | hex (count value : Nat)
  deriving DecidableEq

/-- The problem of a unit whose number lacks a digit here: the text is cut short if it has fewer
bytes left than the number has digits. -/
def shortHex (count : Nat) (cs : List Char) : Fault :=
  if count + (Utf8.encode cs).length < 4 then .truncated else .malformed

def consPiece (p : Piece) (r : List Piece × Ending) : List Piece × Ending := (p :: r.1, r.2)

/-- The pieces of what follows an opening quote. -/
def pieces : Place → List Char → List Piece × Ending
  | _, [] => ([], .broken .truncated)
  | .plain, c :: cs =>
    if c = '"' then ([], .closed cs)
    else if c = '\\' then pieces .escape cs
    else if c.toNat < 0x20 then ([], .broken .malformed)
    else consPiece (.char c) (pieces .plain cs)
  | .escape, c :: cs =>
    if c = 'u' then pieces (.hex 0 0) cs
    else
      match letterEscape? c with
      | some plain => consPiece (.char plain) (pieces .plain cs)
      | none => ([], .broken .malformed)
  | .hex count value, c :: cs =>
    match hexValue? c with
    | none => ([], .broken (shortHex count (c :: cs)))
    | some digit =>
      if count = 3 then consPiece (.unit (value * 16 + digit)) (pieces .plain cs)
      else pieces (.hex (count + 1) (value * 16 + digit)) cs

/-! ## Joining the pieces -/

/-- The first half of a surrogate pair. -/
def isHigh (n : Nat) : Bool := 0xD800 ≤ n && n ≤ 0xDBFF

/-- The second half of a surrogate pair. -/
def isLow (n : Nat) : Bool := 0xDC00 ≤ n && n ≤ 0xDFFF

def pairChar (high low : Nat) : Char :=
  Char.ofNat (0x10000 + (high - 0xD800) * 0x400 + (low - 0xDC00))

/-- The text of pieces behind a first half `high` that awaits its partner, and the first half that
still awaits one at their end. There is none if a half lacks its partner before that. -/
def join : Option Nat → List Piece → Option (List Char × Option Nat)
  | high, [] => some ([], high)
  | none, .char c :: more => (join none more).map fun r => (c :: r.1, r.2)
  | some _, .char _ :: _ => none
  | none, .unit n :: more =>
    if isLow n then none
    else if isHigh n then join (some n) more
    else (join none more).map fun r => (Char.ofNat n :: r.1, r.2)
  | some high, .unit n :: more =>
    if isLow n then (join none more).map fun r => (pairChar high n :: r.1, r.2) else none

/-! ## Reading -/

inductive Reading where
  /-- A whole literal and what comes behind it. The text is `none` if a half of a surrogate pair
  lacks its partner. -/
  | done (text : Option (List Char)) (rest : List Char)
  /-- No whole literal: the first problem where a text is wanted, and where the value is ignored. -/
  | broken (wanted ignored : Fault)
  deriving DecidableEq

/-- The reading of a literal that ends in some way and whose pieces join to some text. -/
def finish : Ending → Option (List Char × Option Nat) → Reading
  | .closed rest, some (text, none) => .done (some text) rest
  | .closed rest, _ => .done none rest
  | .broken fault, some _ => .broken fault fault
  | .broken fault, none => .broken .malformed fault

/-- Reads what follows an opening quote. -/
def read (cs : List Char) : Reading :=
  let cut := pieces .plain cs
  finish cut.2 (join none cut.1)

theorem length_of_pieces {place : Place} {cs rest : List Char}
    (h : (pieces place cs).2 = .closed rest) : rest.length ≤ cs.length := by
  induction cs generalizing place with
  | nil => simp [pieces] at h
  | cons c cs ih =>
    cases place with
    | plain =>
      simp only [pieces] at h
      split at h
      · obtain rfl : cs = rest := by simpa using h
        simp
      · split at h
        · exact Nat.le_succ_of_le (ih h)
        · split at h
          · simp at h
          · exact Nat.le_succ_of_le (ih h)
    | escape =>
      simp only [pieces] at h
      split at h
      · exact Nat.le_succ_of_le (ih h)
      · split at h
        · exact Nat.le_succ_of_le (ih h)
        · simp at h
    | hex count value =>
      simp only [pieces] at h
      split at h
      · simp at h
      · split at h
        · exact Nat.le_succ_of_le (ih h)
        · exact Nat.le_succ_of_le (ih h)

/-- What is left behind a literal is no longer than what followed its opening quote. -/
theorem length_of_read {text : Option (List Char)} {cs rest : List Char}
    (h : read cs = .done text rest) : rest.length ≤ cs.length := by
  simp only [read] at h
  cases ending : (pieces .plain cs).2 with
  | broken fault =>
    rw [ending] at h
    cases joined : join none (pieces .plain cs).1 <;> simp [joined, finish] at h
  | closed left =>
    have same : left = rest := by
      rw [ending] at h
      unfold finish at h
      split at h <;> simp_all
    exact length_of_pieces (same ▸ ending)

end Quoted

end IdlGen.Json
