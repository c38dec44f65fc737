import IdlGen.Number.Binary64

/-!
# Shortest decimal digits

Every real between two midpoints rounds to the same double. Among the decimals in that interval the
ones with the fewest digits are short, and the one nearest to the double is its text. Two can be
equally near; formats differ in which of them they take. The search
looks, for one digit, two digits and so on, at the two multiples of a power of ten beside the
double: if any multiple lies in the interval, one of these two does.
-/

namespace IdlGen

/-- A positive decimal number `0.d₁d₂… · 10 ^ point`, without zeros at either end. -/
structure Digits where
  digits : List Char
  point : Int
  deriving DecidableEq

/-- Which of two decimals is taken that are equally near. -/
inductive Tie where
  | even
  | up
  deriving DecidableEq

/-- The choice between a number and the next one. -/
def Tie.choose (tie : Tie) (n : Nat) : Nat :=
  match tie with
  | .even => n + n % 2
  | .up => n + 1

namespace Shortest

/-- The number of decimal digits before the point of `num / den`, or minus the number of zeros
behind it. Doubles are far above `10 ^ -400`. -/
def pointOf (num den : Nat) : Int :=
  ((Nat.toDigits 10 (num * tenTo 400 / den)).length : Int) - 400

/-- A double beside a decimal grid: the double is `quotient + remainder / unit` steps, and one unit
of its last place is `ulp / unit` steps. -/
structure Beside where
  quotient : Nat
  remainder : Nat
  ulp : Nat
  unit : Nat

/-- Where the magnitude `m · 2 ^ e` lies on the grid of multiples of `10 ^ g`. -/
def beside (m : Nat) (e g : Int) : Beside :=
  let ulp := twoTo e.toNat * tenTo (-g).toNat
  let unit := twoTo (-e).toNat * tenTo g.toNat
  ⟨m * ulp / unit, m * ulp % unit, ulp, unit⟩

/-- Whether the grid point below still rounds to the double: half a unit away at most, a quarter
where the next double below is nearer. An even significand owns both midpoints. -/
def ownsLower (b : Beside) (even narrow : Bool) : Bool :=
  let distance := (if narrow then 4 else 2) * b.remainder
  decide (distance < b.ulp) || (even && distance == b.ulp)

/-- Whether the grid point above still rounds to the double. -/
def ownsUpper (b : Beside) (even : Bool) : Bool :=
  let distance := 2 * (b.unit - b.remainder)
  decide (distance < b.ulp) || (even && distance == b.ulp)

/-- The grid point to write, if one of the two reads back: the nearer one. -/
def choose (tie : Tie) (b : Beside) (even narrow : Bool) : Option Nat :=
  match ownsLower b even narrow, ownsUpper b even with
  | false, false => none
  | true, false => some b.quotient
  | false, true => some (b.quotient + 1)
  | true, true =>
    let twice := 2 * b.remainder
    if twice < b.unit then some b.quotient
    else if b.unit < twice then some (b.quotient + 1)
    else some (tie.choose b.quotient)

/-- Tries one digit more in each round. Seventeen digits always tell doubles apart. -/
def search (tie : Tie) (m : Nat) (e : Int) (even narrow : Bool) : Nat → Int → Nat × Int
  | 0, g => ((beside m e g).quotient, g)
  | rounds + 1, g =>
    match choose tie (beside m e g) even narrow with
    | some n => (n, g)
    | none => search tie m e even narrow rounds (g - 1)

def digits (tie : Tie) (magnitude : Nat) : Digits :=
  let m := Binary64.significand magnitude
  let e := Binary64.exponent magnitude
  let point := pointOf (m * twoTo e.toNat) (twoTo (-e).toNat)
  let narrow := m == twoTo 52 && decide (-1074 < e)
  let found := search tie m e (m % 2 == 0) narrow 17 (point - 1)
  let text := Nat.toDigits 10 found.1
  ⟨(text.reverse.dropWhile (· == '0')).reverse, text.length + found.2⟩

end Shortest

end IdlGen
