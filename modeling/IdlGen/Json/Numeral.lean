import IdlGen.Json.Quoted
import IdlGen.Number.Scaled

/-!
# Number literals

A numeral is kept as it is written: sign, digits, fraction and exponent. What number it stands for
depends on where it is read. One without fraction and exponent is an integer if it fits a signed or
an unsigned 64-bit word; every other one, and minus zero, is a double.
-/

namespace IdlGen

def natOfDigits (digits : List Char) : Nat := Nat.ofDigitChars 10 digits 0

@[simp] theorem natOfDigits_toDigits (n : Nat) : natOfDigits (Nat.toDigits 10 n) = n :=
  Nat.ofDigitChars_ten_toDigits

namespace Json

/-- A number literal. The whole part has at least one digit and no superfluous zero in front; the
fraction is empty if there is none. -/
structure Numeral where
  negative : Bool
  whole : List Char
  fraction : List Char
  /-- Whether the exponent is negative, and its digits. -/
  exponent : Option (Bool × List Char)
  deriving DecidableEq

namespace Numeral

/-! ## Value -/

/-- The integer of a literal that is read as one. -/
def integer? (n : Numeral) : Option Int :=
  if n.fraction.isEmpty && n.exponent.isNone then
    let magnitude := natOfDigits n.whole
    if n.negative then
      if 0 < magnitude ∧ magnitude ≤ twoTo 63 then some (-magnitude) else none
    else if magnitude < twoTo 64 then some magnitude else none
  else none

def exponentValue (n : Numeral) : Int :=
  match n.exponent with
  | none => 0
  | some (true, digits) => -natOfDigits digits
  | some (false, digits) => natOfDigits digits

def toScaled (n : Numeral) : Scaled :=
  let x := (Scaled.whole 0 n.whole).fraction n.fraction
  ⟨x.significand, x.shift + n.exponentValue⟩

/-- The double that the literal is read as; `none` if it is out of range. -/
def toBinary64? (n : Numeral) : Option Binary64 :=
  n.toScaled.toMagnitude?.map (Binary64.ofMagnitude n.negative)

/-! ## Reading -/

inductive Reading where
  | done (numeral : Numeral) (rest : List Char)
  /-- The first problem where the number is wanted, and where the value is ignored. -/
  | broken (wanted ignored : Fault)
  deriving DecidableEq

def Reading.rest : Reading → List Char
  | done _ rest => rest
  | broken _ _ => []

/-- The problem where a digit must stand and none does: at the end of the text the literal is cut
short, though an ignored one just counts as not JSON. -/
def noDigit : List Char → Reading
  | [] => .broken .truncated .malformed
  | _ :: _ => .broken .malformed .malformed

/-- Whether an exponent is negative, and what follows its sign. -/
def splitSign : List Char → Bool × List Char
  | '-' :: cs => (true, cs)
  | '+' :: cs => (false, cs)
  | cs => (false, cs)

/-- Reads the exponent, if there is one, behind what has been read so far. -/
def readExponent (soFar : Numeral) (cs : List Char) : Reading :=
  match cs with
  | [] => .done soFar []
  | e :: more =>
    if e = 'e' ∨ e = 'E' then
      let (negative, unsigned) := splitSign more
      let digits := unsigned.takeWhile Char.isDigit
      if digits.isEmpty then noDigit unsigned
      else
        .done { soFar with exponent := some (negative, digits) } (unsigned.dropWhile Char.isDigit)
    else .done soFar cs

/-- Reads the fraction, if there is one, and what may follow it. -/
def readFraction (soFar : Numeral) (cs : List Char) : Reading :=
  match cs with
  | '.' :: more =>
    let digits := more.takeWhile Char.isDigit
    if digits.isEmpty then noDigit more
    else readExponent { soFar with fraction := digits } (more.dropWhile Char.isDigit)
  | _ => readExponent soFar cs

def readUnsigned (negative : Bool) (cs : List Char) : Reading :=
  let digits := cs.takeWhile Char.isDigit
  if digits.isEmpty then noDigit cs
  else if digits.head? = some '0' ∧ 1 < digits.length then .broken .malformed .malformed
  else readFraction ⟨negative, digits, [], none⟩ (cs.dropWhile Char.isDigit)

def read (cs : List Char) : Reading :=
  match cs with
  | '-' :: more => readUnsigned true more
  | _ => readUnsigned false cs

/-! ## Progress -/

private theorem length_dropWhile_le (cs : List Char) :
    (cs.dropWhile Char.isDigit).length ≤ cs.length :=
  (List.dropWhile_sublist _).length_le

private theorem length_dropWhile_lt {cs : List Char}
    (h : (cs.takeWhile Char.isDigit).isEmpty = false) :
    (cs.dropWhile Char.isDigit).length < cs.length := by
  cases cs with
  | nil => simp at h
  | cons c cs =>
    by_cases hc : c.isDigit
    · simpa [List.dropWhile_cons, hc] using Nat.lt_succ_of_le (length_dropWhile_le cs)
    · simp [hc] at h

@[simp] theorem rest_noDigit (cs : List Char) : (noDigit cs).rest = [] := by
  cases cs <;> rfl

theorem splitSign_length (cs : List Char) : (splitSign cs).2.length ≤ cs.length := by
  unfold splitSign
  split <;> simp

theorem rest_readExponent_length (soFar : Numeral) (cs : List Char) :
    (readExponent soFar cs).rest.length ≤ cs.length := by
  unfold readExponent
  split
  · simp [Reading.rest]
  · rename_i e more
    have h₁ := splitSign_length more
    have h₂ := length_dropWhile_le (splitSign more).2
    split
    · dsimp only
      split
      · simp
      · simp only [Reading.rest, List.length_cons]
        omega
    · simp [Reading.rest]

theorem rest_readFraction_length (soFar : Numeral) (cs : List Char) :
    (readFraction soFar cs).rest.length ≤ cs.length := by
  unfold readFraction
  split
  · rename_i more
    dsimp only
    split
    · simp
    · have h₁ := rest_readExponent_length
        { soFar with fraction := more.takeWhile Char.isDigit } (more.dropWhile Char.isDigit)
      have h₂ := length_dropWhile_le more
      simp only [List.length_cons]
      omega
  · exact rest_readExponent_length soFar cs

theorem rest_readUnsigned_length (negative : Bool) (cs : List Char) (h : cs ≠ []) :
    (readUnsigned negative cs).rest.length < cs.length := by
  have pos : 0 < cs.length := List.length_pos_iff.2 h
  unfold readUnsigned
  dsimp only
  split
  · simpa using pos
  · rename_i hd
    split
    · simpa [Reading.rest] using pos
    · have h₁ := rest_readFraction_length ⟨negative, cs.takeWhile Char.isDigit, [], none⟩
        (cs.dropWhile Char.isDigit)
      have h₂ : (cs.dropWhile Char.isDigit).length < cs.length :=
        length_dropWhile_lt (by simpa using hd)
      omega

/-- What is left behind a literal is shorter than what it was read from. -/
theorem rest_read_length (c : Char) (cs : List Char) :
    (read (c :: cs)).rest.length ≤ cs.length := by
  unfold read
  split
  · rename_i more heq
    obtain ⟨_, rfl⟩ := List.cons.inj heq
    cases cs with
    | nil => simp [readUnsigned]
    | cons d ds => exact Nat.le_of_lt (rest_readUnsigned_length true (d :: ds) (by simp))
  · exact Nat.le_of_lt_succ (rest_readUnsigned_length false (c :: cs) (by simp))

end Numeral

end Json

end IdlGen
