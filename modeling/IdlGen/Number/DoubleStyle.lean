import IdlGen.Number.Shortest

/-!
# How numbers are written

Integers, and with them exponents, are written in decimal behind their sign. The digits of a double are the
shortest that read back. Where the point goes, when an exponent is written and what it looks like are the
choices of a format, gathered in one record.
-/

namespace IdlGen

/-- The decimal digits of an integer behind its sign, if it is negative. -/
def decimal (n : Int) : List Char :=
  (if n < 0 then ['-'] else []) ++ Nat.toDigits 10 n.natAbs

/-- A format's choices for writing doubles. With the point after the first digit, exponents from
`positionalFrom` up to but not including `positionalBelow` are written out as plain digits. -/
structure DoubleStyle where
  /-- Which of two equally short and equally near decimals is written. -/
  tie : Tie
  positionalFrom : Int
  positionalBelow : Int
  /-- Separates digits and exponent. -/
  mark : Char
  /-- Whether an exponent that is not negative has a plus sign. -/
  plusSign : Bool
  /-- Ends a number that is written without exponent. -/
  positionalEnd : String

namespace DoubleStyle

/-- Plain digits around a point, with at least one digit on either side. -/
def positional (d : Digits) : List Char :=
  if d.point ≤ 0 then
    ['0', '.'] ++ List.replicate (-d.point).toNat '0' ++ d.digits
  else if d.point < d.digits.length then
    d.digits.take d.point.toNat ++ ['.'] ++ d.digits.drop d.point.toNat
  else
    d.digits ++ List.replicate (d.point.toNat - d.digits.length) '0' ++ ['.', '0']

/-- One digit, the others behind a point if there are any, and the exponent. -/
def scientific (style : DoubleStyle) (d : Digits) : List Char :=
  let exponent := d.point - 1
  let mantissa := match d.digits with
    | first :: second :: rest => first :: '.' :: second :: rest
    | short => short
  let plus := if style.plusSign ∧ 0 ≤ exponent then ['+'] else []
  mantissa ++ [style.mark] ++ plus ++ decimal exponent

def writeMagnitude (style : DoubleStyle) (magnitude : Nat) : List Char :=
  if magnitude = 0 then ['0', '.', '0'] ++ style.positionalEnd.toList
  else
    let d := Shortest.digits style.tie magnitude
    if style.positionalFrom ≤ d.point - 1 ∧ d.point - 1 < style.positionalBelow then
      positional d ++ style.positionalEnd.toList
    else style.scientific d

/-- The text of a finite double. A negative zero keeps its sign. -/
def write (style : DoubleStyle) (x : Binary64) : List Char :=
  (if x.isNegative then ['-'] else []) ++ style.writeMagnitude x.magnitude

end DoubleStyle

end IdlGen
