import IdlGen.Proofs.Json.Parts
import IdlGen.Proofs.Json.Shortening
import Mathlib.Data.List.Induction

/-!
# Integer literals

A number literal without fraction and exponent stands for an integer, however many digits it has. Where an
integer of some range is asked for, it is read as this integer if the integer lies in the range, and else not
at all (`read_outline_iff`); only minus zero is no integer. Written out again, the integer has the same digits
(`decimal_value`).
-/

namespace IdlGen

/-! ### Digits -/

theorem natOfDigits_singleton_lt {c : Char} (hc : c.isDigit) : natOfDigits [c] < 10 := by
  have hrange : 48 ≤ c.toNat ∧ c.toNat ≤ 57 := Char.isDigit_iff_toNat.1 hc
  have hzero : '0'.toNat = 48 := rfl
  rw [natOfDigits_singleton]
  omega

theorem toDigits_digit {c : Char} (hc : c.isDigit) : Nat.toDigits 10 (natOfDigits [c]) = [c] := by
  have hsmall := natOfDigits_singleton_lt hc
  have hrange : 48 ≤ c.toNat ∧ c.toNat ≤ 57 := Char.isDigit_iff_toNat.1 hc
  have hzero : '0'.toNat = 48 := rfl
  have hchar : Nat.digitChar (natOfDigits [c]) = c := by
    rw [← Char.toNat_inj, Nat.toNat_digitChar_of_lt_ten hsmall, natOfDigits_singleton]
    omega
  rw [Nat.toDigits_of_lt_base hsmall, hchar]

/-- Digits without a superfluous zero are those of their number. -/
theorem toDigits_natOfDigits {digits : List Char} (hrun : Json.Numeral.DigitRun digits)
    (hzero : ¬(digits.head? = some '0' ∧ 1 < digits.length)) :
    Nat.toDigits 10 (natOfDigits digits) = digits := by
  induction digits using List.reverseRecOn with
  | nil => exact absurd rfl hrun.1
  | append_singleton front c ih =>
    have hc : c.isDigit := hrun.2 c (List.mem_append_right front (List.mem_singleton_self c))
    cases front with
    | nil => exact toDigits_digit hc
    | cons d ds =>
      have hd : d ≠ '0' := by
        rintro rfl
        exact hzero ⟨rfl, by simp⟩
      have hdigits : ∀ e ∈ d :: ds, e.isDigit := fun e he => hrun.2 e (List.mem_append_left _ he)
      have hpos := natOfDigits_cons_pos (hdigits d List.mem_cons_self) hd ds
      have hfront := ih ⟨List.cons_ne_nil d ds, hdigits⟩ fun h => hd (Option.some.inj h.1)
      have hlast := Nat.toDigits_append_toDigits (by decide) hpos (natOfDigits_singleton_lt hc)
      rw [hfront, toDigits_digit hc] at hlast
      rw [natOfDigits_append, List.length_singleton, Nat.pow_one]
      exact hlast.symm

namespace Json

/-- An integer as JSON spells it: perhaps a minus sign, then digits without a superfluous zero in front. -/
structure IntegerLiteral where
  negative : Bool
  digits : List Char
  digitRun : Numeral.DigitRun digits
  noZero : ¬(digits.head? = some '0' ∧ 1 < digits.length)

namespace IntegerLiteral

def text (l : IntegerLiteral) : List Char := Numeral.signText l.negative ++ l.digits

/-- The integer that the literal stands for. -/
def value (l : IntegerLiteral) : Int := if l.negative then -natOfDigits l.digits else natOfDigits l.digits

def outline (l : IntegerLiteral) : Outline := .number ⟨l.negative, l.digits, [], none⟩

/-- Zero with a minus sign, which is a double. -/
def IsMinusZero (l : IntegerLiteral) : Prop := l.text = ['-', '0']

instance decidableIsMinusZero (l : IntegerLiteral) : Decidable l.IsMinusZero :=
  inferInstanceAs (Decidable (l.text = ['-', '0']))

theorem isMinusZero_iff (l : IntegerLiteral) : l.IsMinusZero ↔ l.negative ∧ natOfDigits l.digits = 0 := by
  unfold IsMinusZero text Numeral.signText
  constructor
  · intro h
    cases hnegative : l.negative with
    | false =>
      have hdigits : l.digits = ['-', '0'] := by simpa [hnegative] using h
      have hminus := l.digitRun.2 '-' (by simp [hdigits])
      exact absurd hminus (by decide)
    | true =>
      have hdigits : l.digits = ['0'] := by simpa [hnegative] using h
      exact ⟨rfl, by rw [hdigits]; rfl⟩
  · rintro ⟨hnegative, hnone⟩
    have hdigits := toDigits_natOfDigits l.digitRun l.noZero
    rw [hnone] at hdigits
    simp [hnegative, ← hdigits]

/-- An integer that fits a signed or an unsigned 64-bit word is read from its literal, and no other one. -/
theorem integer?_eq_some_iff (l : IntegerLiteral) {n : Int} :
    (⟨l.negative, l.digits, [], none⟩ : Numeral).integer? = some n ↔
      ¬l.IsMinusZero ∧ (-9223372036854775808 ≤ l.value ∧ l.value < 18446744073709551616) ∧ l.value = n := by
  have hsigned : twoTo 63 = 9223372036854775808 := rfl
  have hunsigned : twoTo 64 = 18446744073709551616 := rfl
  rw [isMinusZero_iff, Numeral.integer?]
  simp only [List.isEmpty_nil, Option.isNone_none, Bool.and_self, if_true, hsigned, hunsigned, value]
  cases l.negative with
  | false =>
    simp only [Bool.false_eq_true, if_false, false_and, not_false_eq_true, true_and]
    split
    · rw [Option.some.injEq]
      omega
    · simp only [reduceCtorEq, false_iff]
      omega
  | true =>
    simp only [if_true, true_and]
    split
    · rw [Option.some.injEq]
      omega
    · simp only [reduceCtorEq, false_iff]
      omega

/-- Where an integer is asked for that fits a word, the literal is read as the integer it stands for if this
lies in the range, and otherwise it is refused. -/
theorem read_outline_iff {κ : Type} {body : κ → Body κ} (l : IntegerLiteral) {low high : Int}
    (hlow : -9223372036854775808 ≤ low) (hhigh : high < 18446744073709551616) {depth : Nat} {v : Value} :
    read body (.integer low high) depth l.outline = .ok v ↔
      ¬l.IsMinusZero ∧ (low ≤ l.value ∧ l.value ≤ high) ∧ v = .integer l.value := by
  rw [outline, read, readLeaf]
  constructor
  · intro h
    split at h
    · rename_i n hn
      obtain ⟨hminus, -, rfl⟩ := l.integer?_eq_some_iff.1 hn
      split at h
      · rename_i hrange
        exact ⟨hminus, hrange, (Except.ok.inj h).symm⟩
      · cases h
    · cases h
  · rintro ⟨hminus, hrange, rfl⟩
    have hn := l.integer?_eq_some_iff.2 ⟨hminus, ⟨by omega, by omega⟩, rfl⟩
    simp only [hn, if_pos hrange]

/-- An integer is written with the digits it was read from. -/
theorem decimal_value {l : IntegerLiteral} (h : ¬l.IsMinusZero) : decimal l.value = l.text := by
  have hdigits := toDigits_natOfDigits l.digitRun l.noZero
  rw [isMinusZero_iff] at h
  unfold decimal value text Numeral.signText
  cases hnegative : l.negative with
  | false => simp [hdigits]
  | true =>
    have hpos : 0 < natOfDigits l.digits := Nat.pos_of_ne_zero fun hnone => h ⟨hnegative, hnone⟩
    simp [hdigits, hpos]

end IntegerLiteral

end Json

end IdlGen
