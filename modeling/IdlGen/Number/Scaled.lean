import IdlGen.Number.Binary64

/-!
# Decimal numbers scaled to doubles

A decimal number arrives as digits and a power of ten. Its leading digits, as many as fit in 64
bits, make an integer; the integer is rounded to a double and scaled by one rounded power of ten
(by steps of `10 ^ 308` when the power lies beyond the range of a double). Each step rounds on its
own, so the result can miss the nearest double in its last place, and a scale that overflows gives
no number.
-/

namespace IdlGen

structure Scaled where
  significand : Nat
  shift : Int
  deriving DecidableEq

namespace Scaled

/-- The greatest significand that is kept. -/
def limit : Nat := twoTo 64 - 1

def digitValue (c : Char) : Nat := c.toNat - '0'.toNat

/-- The digits before the point, after a significand read so far. Once the next digit no longer
fits, it and all later ones only raise the power of ten. -/
def whole (significand : Nat) : List Char → Scaled
  | [] => ⟨significand, 0⟩
  | c :: cs =>
    let longer := significand * 10 + digitValue c
    if limit < longer then ⟨significand, cs.length + 1⟩ else whole longer cs

/-- The digits after the point. Once the next digit no longer fits, it and all later ones are
dropped. -/
def fraction (x : Scaled) : List Char → Scaled
  | [] => x
  | c :: cs =>
    let longer := x.significand * 10 + digitValue c
    if limit < longer then x else fraction ⟨longer, x.shift - 1⟩ cs

/-- Scales a magnitude by `10 ^ shift`; `none` where the result is not finite. -/
def scale (magnitude : Nat) (shift : Int) : Option Nat :=
  if shift.natAbs ≤ 308 then
    if 0 ≤ shift then
      let product := Binary64.mul magnitude (Binary64.powerOfTen shift.natAbs)
      if product < Binary64.infinity then some product else none
    else some (Binary64.div magnitude (Binary64.powerOfTen shift.natAbs))
  else if magnitude = 0 then some 0
  else if 0 ≤ shift then none
  else scale (Binary64.div magnitude (Binary64.powerOfTen 308)) (shift + 308)
termination_by shift.natAbs
decreasing_by omega

def toMagnitude? (x : Scaled) : Option Nat :=
  scale (Binary64.roundQuotient x.significand 1) x.shift

end Scaled

end IdlGen
