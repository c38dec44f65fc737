/-!
# Double-precision numbers

A double is its 64-bit pattern. Everything about a finite one is exact arithmetic on its magnitude
`significand · 2 ^ exponent`, and rounding is one function: the pattern nearest to a quotient of
natural numbers, an exact half going to the even neighbour.
-/

namespace IdlGen

def twoTo (n : Nat) : Nat := Nat.pow 2 n

def tenTo (n : Nat) : Nat := Nat.pow 10 n

/-- A double-precision number, as the pattern that stores it. -/
structure Binary64 where
  bits : UInt64
  deriving DecidableEq, Inhabited

namespace Binary64

/-- The pattern of infinity, and the first magnitude that is not finite. -/
def infinity : Nat := 2047 * twoTo 52

def isNegative (x : Binary64) : Bool := decide (twoTo 63 ≤ x.bits.toNat)

def magnitude (x : Binary64) : Nat := x.bits.toNat % twoTo 63

def isFinite (x : Binary64) : Bool := decide (x.magnitude < infinity)

/-- The number with a given sign and magnitude pattern. -/
def ofMagnitude (negative : Bool) (magnitude : Nat) : Binary64 :=
  ⟨UInt64.ofNat ((if negative then twoTo 63 else 0) + magnitude)⟩

/-- The integer `m` of a magnitude `m · 2 ^ e`. -/
def significand (magnitude : Nat) : Nat :=
  if magnitude < twoTo 52 then magnitude else twoTo 52 + magnitude % twoTo 52

/-- The exponent `e` of a magnitude `m · 2 ^ e`; the numbers below the normal range share the
least one. -/
def exponent (magnitude : Nat) : Int :=
  if magnitude < twoTo 52 then -1074 else (magnitude / twoTo 52 : Nat) - 1075

/-! ## Rounding -/

/-- The quotient rounded to the nearest integer, a half to the even one. -/
def divHalfEven (num den : Nat) : Nat :=
  let quotient := num / den
  let twice := 2 * (num % den)
  if twice < den then quotient
  else if den < twice then quotient + 1
  else quotient + quotient % 2

/-- The greatest `k` with `2 ^ k ≤ num / den`. -/
def floorLog2 (num den : Nat) : Int :=
  let k : Int := (num.log2 : Int) - den.log2
  let reached :=
    if 0 ≤ k then decide (den * twoTo k.toNat ≤ num) else decide (den ≤ num * twoTo (-k).toNat)
  if reached then k else k - 1

/-- The magnitude nearest to `num / den`, `infinity` where that is out of range. The integer part
of a magnitude counts in steps of the least exponent, so one sum serves numbers in and below the
normal range, and a carry out of the significand raises the exponent by itself. -/
def roundQuotient (num den : Nat) : Nat :=
  if num = 0 then 0
  else
    let e := max (floorLog2 num den - 52) (-1074)
    let m := if 0 ≤ e then divHalfEven num (den * twoTo e.toNat)
      else divHalfEven (num * twoTo (-e).toNat) den
    min ((e + 1074).toNat * twoTo 52 + m) infinity

/-! ## Products and quotients of magnitudes -/

/-- The magnitude nearest to the product of two finite magnitudes. -/
def mul (a b : Nat) : Nat :=
  let m := significand a * significand b
  let e := exponent a + exponent b
  if 0 ≤ e then roundQuotient (m * twoTo e.toNat) 1 else roundQuotient m (twoTo (-e).toNat)

/-- The magnitude nearest to the quotient of two finite magnitudes. -/
def div (a b : Nat) : Nat :=
  let e := exponent a - exponent b
  if 0 ≤ e then roundQuotient (significand a * twoTo e.toNat) (significand b)
  else roundQuotient (significand a) (significand b * twoTo (-e).toNat)

/-- The magnitude nearest to a power of ten. -/
def powerOfTen (n : Nat) : Nat := roundQuotient (tenTo n) 1

end Binary64

end IdlGen
