import IdlGen.Json.Numeral
import IdlGen.Number.DoubleStyle
import Mathlib.Data.List.Basic
import Mathlib.Data.List.TakeWhile

/-!
# Number literals read back

A number literal has a grammar of its own (`Spells`), and reading is by that grammar: a literal ends where
a character follows that cannot continue it. In front of such a character it is read as it is at the end of
a text, and the digits of an integer are read as that integer.
-/

namespace IdlGen.Json.Numeral

/-- What may follow a number literal. -/
def Stops (rest : List Char) : Prop :=
  ∀ c ∈ rest.head?, c.isDigit = false ∧ c ≠ '.' ∧ c ≠ 'e' ∧ c ≠ 'E'

theorem stops_nil : Stops [] := fun _ hc => nomatch hc

theorem stops_cons {c : Char} (hdigit : c.isDigit = false) (hpoint : c ≠ '.') (hlower : c ≠ 'e')
    (hupper : c ≠ 'E') (rest : List Char) : Stops (c :: rest) := by
  intro d hd
  obtain rfl := Option.some.inj hd
  exact ⟨hdigit, hpoint, hlower, hupper⟩

/-! ### The grammar of literals -/

def DigitRun (digits : List Char) : Prop := digits ≠ [] ∧ ∀ c ∈ digits, c.isDigit

/-- What stands for a fraction, behind a point. -/
inductive FractionText : List Char → List Char → Prop
  | none : FractionText [] []
  | point {digits : List Char} (h : DigitRun digits) : FractionText digits ('.' :: digits)

inductive ExponentText : Option (Bool × List Char) → List Char → Prop
  | none : ExponentText none []
  | unsigned {e : Char} {digits : List Char} (he : e = 'e' ∨ e = 'E') (h : DigitRun digits) :
      ExponentText (some (false, digits)) (e :: digits)
  | plus {e : Char} {digits : List Char} (he : e = 'e' ∨ e = 'E') (h : DigitRun digits) :
      ExponentText (some (false, digits)) (e :: '+' :: digits)
  | minus {e : Char} {digits : List Char} (he : e = 'e' ∨ e = 'E') (h : DigitRun digits) :
      ExponentText (some (true, digits)) (e :: '-' :: digits)

def signText (negative : Bool) : List Char := if negative then ['-'] else []

/-- The texts of a literal, which differ in the exponent's letter and in a plus sign. -/
inductive Spells : Numeral → List Char → Prop
  | literal (negative : Bool) {whole fraction point power : List Char}
      {exponent : Option (Bool × List Char)}
      (hwhole : DigitRun whole) (hzero : ¬(whole.head? = some '0' ∧ 1 < whole.length))
      (hfraction : FractionText fraction point) (hexponent : ExponentText exponent power) :
      Spells ⟨negative, whole, fraction, exponent⟩ (signText negative ++ (whole ++ (point ++ power)))

/-! ### Reading what is spelled -/

/-- A run of digits has ended. -/
def NoDigit (rest : List Char) : Prop := ∀ c ∈ rest.head?, c.isDigit = false

theorem noDigit_cons {c : Char} (hc : c.isDigit = false) (rest : List Char) : NoDigit (c :: rest) := by
  intro d hd
  obtain rfl := Option.some.inj hd
  exact hc

theorem Stops.noDigit {rest : List Char} (h : Stops rest) : NoDigit rest := fun c hc => (h c hc).1

section Run

variable {digits rest : List Char}

theorem takeWhile_run (hdigits : ∀ c ∈ digits, c.isDigit) (hrest : NoDigit rest) :
    (digits ++ rest).takeWhile Char.isDigit = digits := by
  rw [List.takeWhile_append_of_pos hdigits]
  cases rest with
  | nil => exact List.append_nil _
  | cons c rest => rw [List.takeWhile_cons, hrest c rfl, if_neg Bool.false_ne_true, List.append_nil]

theorem dropWhile_run (hdigits : ∀ c ∈ digits, c.isDigit) (hrest : NoDigit rest) :
    (digits ++ rest).dropWhile Char.isDigit = rest := by
  rw [List.dropWhile_append_of_pos hdigits]
  cases rest with
  | nil => rfl
  | cons c rest => rw [List.dropWhile_cons, hrest c rfl, if_neg Bool.false_ne_true]

theorem DigitRun.isEmpty (h : DigitRun digits) : ¬digits.isEmpty = true := by simpa using h.1

theorem noDigit_dropWhile (cs : List Char) : NoDigit (cs.dropWhile Char.isDigit) := by
  intro c hc
  have hhead := List.head?_dropWhile_not Char.isDigit cs
  rw [hc] at hhead
  simpa using hhead

theorem digitRun_takeWhile {cs : List Char} (h : ¬(cs.takeWhile Char.isDigit).isEmpty = true) :
    DigitRun (cs.takeWhile Char.isDigit) :=
  ⟨by simpa using h, fun _ hc => List.mem_takeWhile_imp hc⟩

end Run

theorem noDigit_ne_done (cs : List Char) (n : Numeral) (left : List Char) :
    noDigit cs ≠ .done n left := by
  cases cs <;> exact Reading.noConfusion

theorem splitSign_of_digit {cs : List Char} (h : DigitRun cs) (rest : List Char) :
    splitSign (cs ++ rest) = (false, cs ++ rest) := by
  cases cs with
  | nil => exact absurd rfl h.1
  | cons c cs =>
    have hdigit := h.2 c List.mem_cons_self
    unfold splitSign
    split
    · rename_i heq
      obtain ⟨rfl, -⟩ := List.cons.inj heq
      exact absurd hdigit (by decide)
    · rename_i heq
      obtain ⟨rfl, -⟩ := List.cons.inj heq
      exact absurd hdigit (by decide)
    · rfl

section Stages

variable {negative : Bool} {whole fraction text rest : List Char} {exponent : Option (Bool × List Char)}
  {n : Numeral}

theorem readExponent_of_text (h : ExponentText exponent text) (hrest : Stops rest) :
    readExponent ⟨negative, whole, fraction, none⟩ (text ++ rest) =
      .done ⟨negative, whole, fraction, exponent⟩ rest := by
  have hread : ∀ {e : Char} {more digits : List Char} {sign : Bool}, e = 'e' ∨ e = 'E' → DigitRun digits →
      splitSign more = (sign, digits ++ rest) →
      readExponent ⟨negative, whole, fraction, none⟩ (e :: more) =
        .done ⟨negative, whole, fraction, some (sign, digits)⟩ rest := by
    intro e more digits sign he hdigits hsplit
    simp only [readExponent, if_pos he, hsplit, takeWhile_run hdigits.2 hrest.noDigit,
      dropWhile_run hdigits.2 hrest.noDigit, if_neg hdigits.isEmpty]
  cases h with
  | none =>
    cases rest with
    | nil => rfl
    | cons c rest =>
      obtain ⟨-, -, hlower, hupper⟩ := hrest c rfl
      rw [List.nil_append, readExponent, if_neg (not_or.2 ⟨hlower, hupper⟩)]
  | unsigned he hdigits => exact hread he hdigits (splitSign_of_digit hdigits rest)
  | plus he hdigits => exact hread he hdigits rfl
  | minus he hdigits => exact hread he hdigits rfl

/-- Neither a point nor an exponent goes on with the digits before it. -/
theorem noDigit_exponent (h : ExponentText exponent text) (hrest : NoDigit rest) :
    NoDigit (text ++ rest) := by
  cases h with
  | none => exact hrest
  | unsigned he | plus he | minus he => rcases he with rfl | rfl <;> exact noDigit_cons (by decide) _

theorem readFraction_of_noPoint (h : text.head? ≠ some '.') (soFar : Numeral) :
    readFraction soFar text = readExponent soFar text := by
  unfold readFraction
  split
  · exact absurd rfl h
  · rfl

/-- Behind the fraction, or where there is none, the exponent is read. -/
theorem readFraction_of_point {point more : List Char} (hpoint : FractionText fraction point)
    (hend : NoDigit more) (hnone : more.head? ≠ some '.') :
    readFraction ⟨negative, whole, [], none⟩ (point ++ more) =
      readExponent ⟨negative, whole, fraction, none⟩ more := by
  cases hpoint with
  | none => exact readFraction_of_noPoint hnone _
  | point hdigits =>
    rw [List.cons_append, readFraction, takeWhile_run hdigits.2 hend, dropWhile_run hdigits.2 hend]
    simp only [if_neg hdigits.isEmpty]

theorem head?_exponent (h : ExponentText exponent text) (hrest : rest.head? ≠ some '.') :
    (text ++ rest).head? ≠ some '.' := by
  cases h with
  | none => exact hrest
  | unsigned he | plus he | minus he => rcases he with rfl | rfl <;> simp

theorem Stops.head? (h : Stops rest) : rest.head? ≠ some '.' := fun hhead => (h '.' hhead).2.1 rfl

theorem noDigit_fraction {point : List Char} (hpoint : FractionText fraction point) (hrest : NoDigit rest) :
    NoDigit (point ++ rest) := by
  cases hpoint with
  | none => exact hrest
  | point hdigits => exact noDigit_cons (by decide) _

theorem readUnsigned_of_digits {more : List Char} (hwhole : DigitRun whole) (hmore : NoDigit more)
    (hzero : ¬(whole.head? = some '0' ∧ 1 < whole.length)) :
    readUnsigned negative (whole ++ more) = readFraction ⟨negative, whole, [], none⟩ more := by
  unfold readUnsigned
  simp only [takeWhile_run hwhole.2 hmore, dropWhile_run hwhole.2 hmore, if_neg hwhole.isEmpty,
    if_neg hzero]

theorem read_cons_of_ne {c : Char} (hminus : c ≠ '-') (cs : List Char) :
    read (c :: cs) = readUnsigned false (c :: cs) := by
  unfold read
  split
  · rename_i heq
    exact absurd (List.cons.inj heq).1 hminus
  · rfl

theorem read_signed (negative : Bool) {cs : List Char} (h : DigitRun cs) (rest : List Char) :
    read (signText negative ++ (cs ++ rest)) = readUnsigned negative (cs ++ rest) := by
  cases negative with
  | true => rfl
  | false =>
    cases cs with
    | nil => exact absurd rfl h.1
    | cons c cs =>
      refine read_cons_of_ne ?_ _
      rintro rfl
      exact absurd (h.2 '-' List.mem_cons_self) (by decide)

/-- A spelled literal is read in front of anything that cannot continue it. -/
theorem Spells.read (h : Spells n text) (hrest : Stops rest) : read (text ++ rest) = .done n rest := by
  cases h with
  | literal negative hwhole hzero hfraction hexponent =>
    have hmore := noDigit_fraction hfraction (noDigit_exponent hexponent hrest.noDigit)
    simp only [List.append_assoc]
    rw [read_signed negative hwhole, readUnsigned_of_digits hwhole hmore hzero,
      readFraction_of_point hfraction (noDigit_exponent hexponent hrest.noDigit)
        (head?_exponent hexponent hrest.head?)]
    exact readExponent_of_text hexponent hrest

/-! ### Spelling what is read -/

theorem splitSign_cases (cs : List Char) :
    (∃ more, cs = '-' :: more ∧ splitSign cs = (true, more)) ∨
      (∃ more, cs = '+' :: more ∧ splitSign cs = (false, more)) ∨ splitSign cs = (false, cs) := by
  unfold splitSign
  split
  · exact .inl ⟨_, rfl, rfl⟩
  · exact .inr (.inl ⟨_, rfl, rfl⟩)
  · exact .inr (.inr rfl)

theorem exponentText_of_read {cs : List Char} (hcs : NoDigit cs)
    (h : readExponent ⟨negative, whole, fraction, none⟩ cs = .done n rest) :
    ∃ exponent text, n = ⟨negative, whole, fraction, exponent⟩ ∧ cs = text ++ rest ∧
      ExponentText exponent text ∧ NoDigit rest := by
  cases cs with
  | nil =>
    obtain ⟨rfl, rfl⟩ := Reading.done.inj h
    exact ⟨none, [], rfl, rfl, .none, hcs⟩
  | cons e more =>
    rw [readExponent] at h
    split at h
    · rename_i he
      dsimp only at h
      split at h
      · exact absurd h (noDigit_ne_done _ _ _)
      · rename_i hdigits
        obtain ⟨rfl, rfl⟩ := Reading.done.inj h
        have hrun := digitRun_takeWhile hdigits
        have hend := noDigit_dropWhile (splitSign more).2
        have hsplit := List.takeWhile_append_dropWhile (p := Char.isDigit) (l := (splitSign more).2)
        generalize (splitSign more).2.takeWhile Char.isDigit = digits at hrun hsplit
        generalize (splitSign more).2.dropWhile Char.isDigit = rest at hend hsplit
        rcases splitSign_cases more with ⟨unsigned, rfl, hsign⟩ | ⟨unsigned, rfl, hsign⟩ | hsign
        · rw [hsign] at hsplit ⊢
          exact ⟨_, e :: '-' :: digits, rfl, congrArg (e :: '-' :: ·) hsplit.symm, .minus he hrun, hend⟩
        · rw [hsign] at hsplit ⊢
          exact ⟨_, e :: '+' :: digits, rfl, congrArg (e :: '+' :: ·) hsplit.symm, .plus he hrun, hend⟩
        · rw [hsign] at hsplit ⊢
          exact ⟨_, e :: digits, rfl, congrArg (e :: ·) hsplit.symm, .unsigned he hrun, hend⟩
    · obtain ⟨rfl, rfl⟩ := Reading.done.inj h
      exact ⟨none, [], rfl, rfl, .none, hcs⟩

theorem fractionText_of_read {cs : List Char} (hcs : NoDigit cs)
    (h : readFraction ⟨negative, whole, [], none⟩ cs = .done n rest) :
    ∃ fraction exponent point power, n = ⟨negative, whole, fraction, exponent⟩ ∧
      cs = point ++ (power ++ rest) ∧ FractionText fraction point ∧ ExponentText exponent power ∧
        NoDigit rest := by
  by_cases hpoint : cs.head? = some '.'
  · obtain ⟨more, rfl⟩ := List.head?_eq_some_iff.1 hpoint
    rw [readFraction] at h
    split at h
    · exact absurd h (noDigit_ne_done _ _ _)
    · rename_i hdigits
      obtain ⟨exponent, power, rfl, hsplit, hpower, hrest⟩ := exponentText_of_read
        (noDigit_dropWhile more) h
      refine ⟨_, exponent, _, power, rfl, ?_, .point (digitRun_takeWhile hdigits), hpower, hrest⟩
      rw [← hsplit, List.cons_append, List.takeWhile_append_dropWhile]
  · rw [readFraction_of_noPoint hpoint] at h
    obtain ⟨exponent, power, rfl, hsplit, hpower, hrest⟩ := exponentText_of_read hcs h
    exact ⟨[], exponent, [], power, rfl, hsplit, .none, hpower, hrest⟩

theorem spells_of_readUnsigned {cs : List Char} (h : readUnsigned negative cs = .done n rest) :
    ∃ text, signText negative ++ cs = text ++ rest ∧ Spells n text ∧ NoDigit rest := by
  unfold readUnsigned at h
  dsimp only at h
  split at h
  · exact absurd h (noDigit_ne_done _ _ _)
  · rename_i hdigits
    split at h
    · cases h
    · rename_i hzero
      obtain ⟨fraction, exponent, point, power, rfl, hsplit, hpoint, hpower, hrest⟩ :=
        fractionText_of_read (noDigit_dropWhile cs) h
      refine ⟨_, ?_, .literal negative (digitRun_takeWhile hdigits) hzero hpoint hpower, hrest⟩
      have hcs := List.takeWhile_append_dropWhile (p := Char.isDigit) (l := cs)
      rw [hsplit] at hcs
      simp only [List.append_assoc, hcs]

/-- What is read as a literal begins with a text of it, and no digit follows that. -/
theorem spells_of_read {cs : List Char} (h : read cs = .done n rest) :
    ∃ text, cs = text ++ rest ∧ Spells n text ∧ NoDigit rest := by
  unfold Numeral.read at h
  split at h
  · exact spells_of_readUnsigned h
  · exact spells_of_readUnsigned h

end Stages

theorem Spells.ne_nil {n : Numeral} {text : List Char} (h : Spells n text) : text ≠ [] := by
  cases h with
  | literal negative hwhole =>
    intro hnil
    simp only [List.append_eq_nil_iff] at hnil
    exact hwhole.1 hnil.2.1

/-- What is a literal at the end of a text is a text of it. -/
theorem spells_of_read_nil {n : Numeral} {cs : List Char} (h : read cs = .done n []) : Spells n cs := by
  obtain ⟨text, hsplit, hspells, -⟩ := spells_of_read h
  rw [List.append_nil] at hsplit
  rwa [hsplit]

/-- What is a literal at the end of a text is the same literal in front of anything that cannot
continue it. -/
theorem read_append {rest : List Char} (hrest : Stops rest) {n : Numeral} {cs : List Char}
    (h : read cs = .done n []) : read (cs ++ rest) = .done n rest := (spells_of_read_nil h).read hrest

/-! ### Integers -/

/-- The literal of an integer. -/
def ofInt (n : Int) : Numeral := ⟨n < 0, Nat.toDigits 10 n.natAbs, [], none⟩

theorem eq_zero_of_head_toDigits {n : Nat} (h : (Nat.toDigits 10 n).head? = some '0') : n = 0 := by
  induction n using Nat.strongRecOn with
  | ind n ih =>
    by_cases hsmall : n < 10
    · rw [Nat.toDigits_of_lt_base hsmall] at h
      have hdigits : ∀ d < 10, Nat.digitChar d = '0' → d = 0 := by decide
      exact hdigits n hsmall (Option.some.inj h)
    · have hlarge : 10 ≤ n := Nat.le_of_not_lt hsmall
      rw [Nat.toDigits_of_base_le (by decide) hlarge,
        List.head?_append_of_ne_nil _ Nat.toDigits_ne_nil] at h
      have hzero := ih (n / 10) (by omega) h
      omega

theorem takeWhile_toDigits (n : Nat) :
    (Nat.toDigits 10 n).takeWhile Char.isDigit = Nat.toDigits 10 n :=
  List.takeWhile_eq_self_iff.2 fun _ hc => Nat.isDigit_of_mem_toDigits (by decide) (by decide) hc

theorem dropWhile_toDigits (n : Nat) : (Nat.toDigits 10 n).dropWhile Char.isDigit = [] :=
  List.dropWhile_eq_nil_iff.2 fun _ hc => Nat.isDigit_of_mem_toDigits (by decide) (by decide) hc

theorem readUnsigned_toDigits (negative : Bool) (n : Nat) :
    readUnsigned negative (Nat.toDigits 10 n) =
      .done ⟨negative, Nat.toDigits 10 n, [], none⟩ [] := by
  unfold readUnsigned
  dsimp only
  rw [takeWhile_toDigits, dropWhile_toDigits]
  have hdigits : (Nat.toDigits 10 n).isEmpty = false := by simp
  have hzero : ¬((Nat.toDigits 10 n).head? = some '0' ∧ 1 < (Nat.toDigits 10 n).length) := by
    rintro ⟨hhead, hlength⟩
    rw [eq_zero_of_head_toDigits hhead] at hlength
    exact absurd hlength (by decide)
  rw [if_neg (by rw [hdigits]; exact Bool.false_ne_true), if_neg hzero]
  rfl

theorem read_decimal (n : Int) : read (decimal n) = .done (ofInt n) [] := by
  by_cases hnegative : n < 0
  · rw [decimal, if_pos hnegative, ofInt, decide_eq_true hnegative]
    exact readUnsigned_toDigits true n.natAbs
  · rw [decimal, if_neg hnegative, ofInt, decide_eq_false hnegative, List.nil_append]
    cases hdigits : Nat.toDigits 10 n.natAbs with
    | nil => exact absurd hdigits Nat.toDigits_ne_nil
    | cons c cs =>
      have hdigit : c.isDigit := by
        have hmem : c ∈ Nat.toDigits 10 n.natAbs := by rw [hdigits]; exact List.mem_cons_self
        exact Nat.isDigit_of_mem_toDigits (by decide) (by decide) hmem
      have hminus : c ≠ '-' := by
        rintro rfl
        exact absurd hdigit (by decide)
      rw [read_cons_of_ne hminus, ← hdigits]
      exact readUnsigned_toDigits false n.natAbs

/-- An integer that fits a signed or an unsigned 64-bit word is read back. -/
theorem integer?_ofInt {n : Int} (hlow : -9223372036854775808 ≤ n)
    (hhigh : n < 18446744073709551616) : (ofInt n).integer? = some n := by
  have hsigned : twoTo 63 = 9223372036854775808 := rfl
  have hunsigned : twoTo 64 = 18446744073709551616 := rfl
  have hplain : ((ofInt n).fraction.isEmpty && (ofInt n).exponent.isNone) = true := rfl
  rw [integer?, if_pos hplain]
  simp only [ofInt, natOfDigits_toDigits, hsigned, hunsigned, decide_eq_true_eq]
  by_cases hnegative : n < 0
  · rw [if_pos hnegative, if_pos (by omega)]
    congr 1
    omega
  · rw [if_neg hnegative, if_pos (by omega)]
    congr 1
    omega

/-- What is read as an integer fits a signed or an unsigned 64-bit word. -/
theorem integer?_range {n : Numeral} {i : Int} (h : n.integer? = some i) :
    -9223372036854775808 ≤ i ∧ i < 18446744073709551616 := by
  have hsigned : twoTo 63 = 9223372036854775808 := rfl
  have hunsigned : twoTo 64 = 18446744073709551616 := rfl
  unfold integer? at h
  simp only [hsigned, hunsigned] at h
  split at h
  · split at h
    · split at h
      · obtain rfl := Option.some.inj h
        omega
      · cases h
    · split at h
      · obtain rfl := Option.some.inj h
        omega
      · cases h
  · cases h

end IdlGen.Json.Numeral
