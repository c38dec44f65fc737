import IdlGen.Json.Quoted
import IdlGen.Json.Numeral

/-!
# Tokens

A JSON text is cut into punctuation, words, number and string literals; blanks between them have no
token. Cutting stops at the first thing that is no token. A token that is broken off or ill formed
keeps its kind and its problem, because what a reader says about it depends on what it wants there.
-/

namespace IdlGen.Json

inductive Mark where
  | openBracket
  | closeBracket
  | openBrace
  | closeBrace
  | comma
  | colon
  deriving DecidableEq

inductive Word where
  | null
  | yes
  | no
  deriving DecidableEq

/-- What a broken token starts out as. -/
inductive Start where
  | null
  | truth
  | number
  | string
  | nothing
  deriving DecidableEq

inductive Token where
  | mark (m : Mark)
  | word (w : Word)
  | number (n : Numeral)
  /-- A string literal. Its text is `none` if a surrogate lacks its partner. -/
  | string (text : Option (List Char))
  /-- No token: the first problem where the value is wanted, and where it is ignored. -/
  | broken (start : Start) (wanted ignored : Fault)
  deriving DecidableEq

namespace Token

def isBlank (c : Char) : Bool := c == ' ' || c == '\n' || c == '\t' || c == '\r'

def mark? (c : Char) : Option Mark :=
  if c = '[' then some .openBracket
  else if c = ']' then some .closeBracket
  else if c = '{' then some .openBrace
  else if c = '}' then some .closeBrace
  else if c = ',' then some .comma
  else if c = ':' then some .colon
  else none

/-- The word that starts with a letter: what a broken one counts as, the word, and its remaining
letters. -/
def word? (c : Char) : Option (Start × Word × List Char) :=
  if c = 'n' then some (.null, .null, ['u', 'l', 'l'])
  else if c = 't' then some (.truth, .yes, ['r', 'u', 'e'])
  else if c = 'f' then some (.truth, .no, ['a', 'l', 's', 'e'])
  else none

/-- Goes on behind the letters if the text does, and otherwise tells whether it ends among them. -/
def spell : List Char → List Char → Except Fault (List Char)
  | [], cs => .ok cs
  | _ :: _, [] => .error .truncated
  | l :: ls, c :: cs => if l = c then spell ls cs else .error .malformed

theorem length_of_spell {ls cs rest : List Char} (h : spell ls cs = .ok rest) :
    rest.length ≤ cs.length := by
  induction ls generalizing cs with
  | nil =>
    cases cs <;> simp_all [spell]
  | cons l ls ih =>
    cases cs with
    | nil => simp [spell] at h
    | cons c cs =>
      simp only [spell] at h
      split at h
      · exact Nat.le_succ_of_le (ih h)
      · simp at h

def scan : List Char → List Token
  | [] => []
  | c :: cs =>
    if isBlank c then scan cs
    else
      match mark? c with
      | some m => .mark m :: scan cs
      | none =>
        if c = '"' then
          match h : Quoted.read cs with
          | .done text rest =>
            have : rest.length < cs.length + 1 := Nat.lt_succ_of_le (Quoted.length_of_read h)
            .string text :: scan rest
          | .broken wanted ignored => [.broken .string wanted ignored]
        else if c = '-' ∨ c.isDigit then
          match h : Numeral.read (c :: cs) with
          | .done n rest =>
            have : rest.length < cs.length + 1 :=
              Nat.lt_succ_of_le
                (by simpa [h, Numeral.Reading.rest] using Numeral.rest_read_length c cs)
            .number n :: scan rest
          | .broken wanted ignored => [.broken .number wanted ignored]
        else
          match word? c with
          | none => [.broken .nothing .malformed .malformed]
          | some (start, w, letters) =>
            match h : spell letters cs with
            | .ok rest =>
              have : rest.length < cs.length + 1 := Nat.lt_succ_of_le (length_of_spell h)
              .word w :: scan rest
            | .error fault => [.broken start fault fault]
termination_by cs => cs.length

end Token

end IdlGen.Json
