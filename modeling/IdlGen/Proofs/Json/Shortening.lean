import IdlGen.Proofs.Json.Tearing
import IdlGen.Proofs.Json.Tokens
import IdlGen.Proofs.Number.Range

/-!
# Numbers that have lost digits

A written integer that loses its last digits comes nearer to zero. A written double that loses its last
digits stays in range: it has few digits before the point, and an exponent that loses a digit loses nine
tenths of its value at least.
-/

namespace IdlGen

/-! ### Digits -/

theorem natOfDigits_append (digits lost : List Char) :
    natOfDigits (digits ++ lost) = 10 ^ lost.length * natOfDigits digits + natOfDigits lost := by
  rw [natOfDigits, Nat.ofDigitChars_append, Nat.ofDigitChars_eq_ofDigitChars_zero]
  rfl

theorem natOfDigits_le_append (digits lost : List Char) :
    natOfDigits digits ≤ natOfDigits (digits ++ lost) := by
  have hpower : natOfDigits digits ≤ 10 ^ lost.length * natOfDigits digits :=
    Nat.le_mul_of_pos_left _ (Nat.pow_pos (by decide))
  rw [natOfDigits_append]
  omega

theorem natOfDigits_tenth {digits lost : List Char} (hlost : lost ≠ []) :
    10 * natOfDigits digits ≤ natOfDigits (digits ++ lost) := by
  have hpower : 10 ^ 1 ≤ 10 ^ lost.length :=
    Nat.pow_le_pow_right (by decide) (List.length_pos_of_ne_nil hlost)
  have hdigits : 10 ^ 1 * natOfDigits digits ≤ 10 ^ lost.length * natOfDigits digits :=
    Nat.mul_le_mul_right _ hpower
  rw [natOfDigits_append]
  omega

theorem natOfDigits_singleton (c : Char) : natOfDigits [c] = c.toNat - '0'.toNat := by
  simp [natOfDigits, Nat.ofDigitChars]

theorem natOfDigits_cons_pos {c : Char} (hdigit : c.isDigit) (hzero : c ≠ '0') (cs : List Char) :
    0 < natOfDigits (c :: cs) := by
  have hone : 0 < c.toNat - '0'.toNat := by
    have hrange := Char.isDigit_iff_toNat.1 hdigit
    have hother : c.toNat ≠ '0'.toNat := fun hsame => hzero (Char.toNat_inj.1 hsame)
    omega
  have hcons := natOfDigits_append [c] cs
  rw [List.singleton_append, natOfDigits_singleton] at hcons
  rw [hcons]
  have hpower : 0 < 10 ^ cs.length * (c.toNat - '0'.toNat) := Nat.mul_pos (Nat.pow_pos (by decide)) hone
  omega

/-- Only zero begins with the digit zero. -/
theorem natOfDigits_pos {n : Nat} {digits lost : List Char} (hn : 0 < n)
    (hsplit : Nat.toDigits 10 n = digits ++ lost) (hdigits : digits ≠ []) : 0 < natOfDigits digits := by
  obtain ⟨c, cs, rfl⟩ := List.exists_cons_of_ne_nil hdigits
  have hmem : c ∈ Nat.toDigits 10 n := by rw [hsplit]; exact List.mem_cons_self
  have hdigit : c.isDigit := Nat.isDigit_of_mem_toDigits (by decide) (by decide) hmem
  have hzero : c ≠ '0' := by
    rintro rfl
    have hnone := Json.Numeral.eq_zero_of_head_toDigits (n := n) (by rw [hsplit]; rfl)
    omega
  exact natOfDigits_cons_pos hdigit hzero cs

namespace Json.Numeral

/-- An integer that has lost digits is between zero and the whole one. -/
theorem integer?_shortened {n : Int} {n' : Numeral} (hlow : -9223372036854775808 ≤ n)
    (hhigh : n < 18446744073709551616) (h : (ofInt n).Shortened n') :
    ∃ i, n'.integer? = some i ∧ min n 0 ≤ i ∧ i ≤ max n 0 := by
  have hwhole : ∃ i, (ofInt n).integer? = some i ∧ min n 0 ≤ i ∧ i ≤ max n 0 :=
    ⟨n, integer?_ofInt hlow hhigh, by omega, by omega⟩
  generalize hnumeral : ofInt n = m at h hwhole
  cases h with
  | fraction negative whole digits lost exponent =>
    obtain ⟨-, -, hfraction, rfl⟩ := Numeral.mk.inj hnumeral
    obtain ⟨rfl, rfl⟩ := List.append_eq_nil_iff.1 hfraction.symm
    exact hwhole
  | exponent negative whole fraction sign digits hlost =>
    obtain ⟨-, -, -, hexponent⟩ := Numeral.mk.inj hnumeral
    cases hexponent
  | whole negative hdigits lost fraction exponent =>
    rename_i digits
    obtain ⟨rfl, hsplit, -, -⟩ := Numeral.mk.inj hnumeral
    have hle := natOfDigits_le_append digits lost
    rw [← hsplit, natOfDigits_toDigits] at hle
    have hsigned : twoTo 63 = 9223372036854775808 := rfl
    have hunsigned : twoTo 64 = 18446744073709551616 := rfl
    simp only [integer?, List.isEmpty_nil, Option.isNone_none, Bool.and_self, if_true,
      decide_eq_true_eq, hsigned, hunsigned]
    by_cases hnegative : n < 0
    · have hpos := natOfDigits_pos (n := n.natAbs) (by omega) hsplit hdigits
      rw [if_pos hnegative, if_pos (by omega)]
      exact ⟨_, rfl, by omega, by omega⟩
    · rw [if_neg hnegative, if_pos (by omega)]
      exact ⟨_, rfl, by omega, by omega⟩

end Json.Numeral

/-! ### Written doubles -/

namespace DoubleStyle

theorem isDigit_of_mem_digits {tie : Tie} {magnitude : Nat} {c : Char}
    (hc : c ∈ (Shortest.digits tie magnitude).digits) : c.isDigit := by
  have hdrop := (List.dropWhile_sublist _).subset (List.mem_reverse.1 hc)
  exact Nat.isDigit_of_mem_toDigits (by decide) (by decide) (List.mem_reverse.1 hdrop)

/-- The text begins with a few digits and goes on with something else. -/
def FewDigits (text : List Char) : Prop :=
  ∃ run c rest, text = run ++ c :: rest ∧ (∀ d ∈ run, d.isDigit) ∧ run.length ≤ 16 ∧ (c = '.' ∨ c = 'e')

theorem fewDigits_positional {d : Digits} (hdigits : ∀ c ∈ d.digits, c.isDigit) (hpoint : d.point ≤ 16) :
    FewDigits (positional d) := by
  unfold positional
  split
  · exact ⟨['0'], '.', _, rfl, List.forall_mem_singleton.2 rfl, by decide, .inl rfl⟩
  · split
    · refine ⟨d.digits.take d.point.toNat, '.', d.digits.drop d.point.toNat, ?_, ?_, ?_, .inl rfl⟩
      · rw [List.append_assoc, List.singleton_append]
      · exact fun c hc => hdigits c (List.mem_of_mem_take hc)
      · rw [List.length_take]
        omega
    · rename_i hpositive hlong
      refine ⟨d.digits ++ List.replicate (d.point.toNat - d.digits.length) '0', '.', ['0'], rfl, ?_,
        ?_, .inl rfl⟩
      · refine List.forall_mem_append.2 ⟨hdigits, fun c hc => ?_⟩
        rw [List.eq_of_mem_replicate hc]
        decide
      · rw [List.length_append, List.length_replicate]
        omega

theorem fewDigits_scientific {style : DoubleStyle} {d : Digits} (hdigits : ∀ c ∈ d.digits, c.isDigit)
    (hmark : style.mark = 'e') : FewDigits (style.scientific d) := by
  unfold scientific
  rw [hmark]
  rcases hd : d.digits with _ | ⟨first, _ | ⟨second, rest⟩⟩
  · exact ⟨[], 'e', _, rfl, by simp, by simp, .inr rfl⟩
  · rw [hd] at hdigits
    exact ⟨[first], 'e', _, rfl, hdigits, by simp, .inr rfl⟩
  · rw [hd] at hdigits
    refine ⟨[first], '.', _, rfl, fun c hc => ?_, by simp, .inl rfl⟩
    rw [List.mem_singleton.1 hc]
    exact hdigits first List.mem_cons_self

theorem fewDigits_writeMagnitude (magnitude : Nat) :
    FewDigits (Json.Value.doubleStyle.writeMagnitude magnitude) := by
  have hend : ∀ text, text ++ Json.Value.doubleStyle.positionalEnd.toList = text :=
    fun text => List.append_nil text
  unfold writeMagnitude
  simp only [hend]
  split
  · exact ⟨['0'], '.', ['0'], rfl, List.forall_mem_singleton.2 rfl, by decide, .inl rfl⟩
  · split
    · rename_i hpoint
      have hbelow : Json.Value.doubleStyle.positionalBelow = 16 := rfl
      exact fewDigits_positional (fun _ => isDigit_of_mem_digits) (by omega)
    · exact fewDigits_scientific (fun _ => isDigit_of_mem_digits) rfl

end DoubleStyle

namespace Json

open Numeral

/-- A written double has at most sixteen digits before the point. -/
theorem Value.length_whole_numeral {x : Binary64} (h : ReadsBack x) : (numeral x).whole.length ≤ 16 := by
  have hspells := spells_of_read_nil (read_double h).1
  obtain ⟨run, c, rest, hmagnitude, hrun, hlength, hc⟩ := DoubleStyle.fewDigits_writeMagnitude x.magnitude
  have hmark : c.isDigit = false := by rcases hc with rfl | rfl <;> rfl
  have hminus : c ≠ '-' := by rcases hc with rfl | rfl <;> decide
  rw [DoubleStyle.write, hmagnitude] at hspells
  generalize numeral x = n at hspells
  generalize htext : (if x.isNegative = true then ['-'] else []) ++ (run ++ c :: rest) = text at hspells
  cases hspells with
  | @literal negative whole fraction point power exponent hwhole hzero hfraction hexponent =>
    have hmore : NoDigit (point ++ power) := by
      have hmore := noDigit_fraction hfraction (noDigit_exponent hexponent stops_nil.noDigit)
      rwa [List.append_nil] at hmore
    have hsame : run ++ c :: rest = whole ++ (point ++ power) → whole = run := by
      intro hsame
      have htake := congrArg (List.takeWhile Char.isDigit) hsame
      rw [takeWhile_run hrun (noDigit_cons hmark rest), takeWhile_run hwhole.2 hmore] at htake
      exact htake.symm
    have hstart : ∀ {cs : List Char}, whole ++ (point ++ power) ≠ '-' :: cs := by
      intro cs hcs
      obtain ⟨d, ds, rfl⟩ := List.exists_cons_of_ne_nil hwhole.1
      obtain ⟨rfl, -⟩ := List.cons.inj hcs
      exact absurd (hwhole.2 '-' List.mem_cons_self) (by decide)
    have hstart' : ∀ {cs : List Char}, run ++ c :: rest ≠ '-' :: cs := by
      intro cs hcs
      cases run with
      | nil => exact hminus (List.cons.inj hcs).1
      | cons d ds =>
        obtain ⟨rfl, -⟩ := List.cons.inj hcs
        exact absurd (hrun '-' List.mem_cons_self) (by decide)
    suffices whole = run by rwa [this]
    cases hx : x.isNegative <;> cases negative <;> rw [hx] at htext
    · exact hsame htext
    · exact absurd htext hstart'
    · exact absurd htext.symm hstart
    · exact hsame (List.cons.inj htext).2

/-- A written double that has lost digits is in range. -/
theorem Value.toBinary64?_shortened {x : Binary64} {n' : Numeral} (h : ReadsBack x)
    (hshort : (numeral x).Shortened n') : n'.toBinary64?.isSome := by
  have hwhole := length_whole_numeral h
  have hrange := congrArg Option.isSome (read_double h).2
  generalize numeral x = n at hshort hwhole hrange
  rw [toBinary64?, Option.isSome_map] at hrange ⊢
  have hlimit : 0 ≤ Scaled.limit := Nat.zero_le _
  have hbounds : ∀ (whole fraction : List Char), whole.length ≤ 16 →
      ((Scaled.whole 0 whole).fraction fraction).significand ≤ Scaled.limit ∧
        ((Scaled.whole 0 whole).fraction fraction).shift ≤ 16 := by
    intro whole fraction hlength
    obtain ⟨hsignificand, hshift⟩ := Scaled.whole_bounds hlimit whole
    obtain ⟨hsignificand', hshift'⟩ := Scaled.fraction_bounds hsignificand fraction
    exact ⟨hsignificand', by omega⟩
  have hplain : ∀ {negative : Bool} {whole fraction : List Char}, whole.length ≤ 16 →
      (toScaled ⟨negative, whole, fraction, none⟩).toMagnitude?.isSome := by
    intro negative whole fraction hlength
    obtain ⟨hsignificand, hshift⟩ := hbounds whole fraction hlength
    have hnone : exponentValue ⟨negative, whole, fraction, none⟩ = 0 := rfl
    refine Scaled.toMagnitude?_isSome hsignificand ?_
    simp only [toScaled, hnone]
    omega
  cases hshort with
  | whole negative hdigits lost fraction exponent =>
    rw [List.length_append] at hwhole
    exact hplain (by omega)
  | fraction negative whole digits lost exponent => exact hplain hwhole
  | exponent negative whole fraction sign digits hlost =>
    obtain ⟨hsignificand, hshift⟩ := hbounds whole fraction hwhole
    cases sign with
    | true =>
      refine Scaled.toMagnitude?_isSome hsignificand ?_
      simp only [toScaled, exponentValue]
      omega
    | false =>
      exact Scaled.toMagnitude?_isSome_of_tenth hrange hsignificand hshift (natOfDigits_tenth hlost)

end Json

end IdlGen
