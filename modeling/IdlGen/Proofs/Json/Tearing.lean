import IdlGen.Proofs.Json.Lexing

/-!
# Torn tokens

A text that is torn off somewhere is cut into the tokens before that place, and what is left of the token
in which it is torn, if it is torn in one (`TornTokens`). A word or string that has lost its end is cut
short. A number may have lost its last digits only, and is then another number (`Shortened`).
-/

namespace IdlGen.Json

/-! ### Torn strings -/

namespace Quoted

/-- Pieces that join to a text can be joined as far as they go. -/
theorem join_isSome_of_append {high : Option Nat} {ps more : List Piece}
    (h : (join high (ps ++ more)).isSome) : (join high ps).isSome := by
  induction ps generalizing high with
  | nil => cases high <;> rfl
  | cons p ps ih =>
    rw [List.cons_append] at h
    cases p with
    | char c =>
      cases high with
      | none =>
        rw [join, Option.isSome_map] at h ⊢
        exact ih h
      | some high => cases h
    | unit n =>
      cases high with
      | none =>
        rw [join] at h ⊢
        split at h
        · cases h
        · rename_i hlow
          rw [if_neg hlow]
          split at h
          · rename_i hhigh
            rw [if_pos hhigh]
            exact ih h
          · rename_i hhigh
            rw [if_neg hhigh, Option.isSome_map]
            rw [Option.isSome_map] at h
            exact ih h
      | some high =>
        rw [join] at h ⊢
        split at h
        · rename_i hlow
          rw [if_pos hlow, Option.isSome_map]
          rw [Option.isSome_map] at h
          exact ih h
        · cases h

/-- The number of a unit that has lost its last digits. -/
theorem pieces_torn_digits {count value n : Nat} {digits kept lost : List Char}
    (h : HexDigits count value digits n) (hsplit : digits = kept ++ lost) (hlost : lost ≠ []) :
    pieces (.hex count value) kept = ([], .broken .truncated) := by
  induction h generalizing kept with
  | last hc =>
    cases kept with
    | nil => rfl
    | cons c kept =>
      obtain ⟨-, hrest⟩ := List.cons.inj hsplit
      exact absurd (List.append_eq_nil_iff.1 hrest.symm).2 hlost
  | more hcount hc h ih =>
    cases kept with
    | nil => rfl
    | cons c kept =>
      obtain ⟨rfl, hrest⟩ := List.cons.inj hsplit
      rw [pieces_hex hc, if_neg hcount]
      exact ih hrest

/-- Of a literal that is torn before its closing quote, the pieces before that place are left. -/
theorem Spells.pieces_torn {ps : List Piece} {text kept lost : List Char} (h : Spells ps text)
    (hsplit : text = kept ++ lost) :
    ∃ left, Quoted.pieces .plain kept = (left, .broken .truncated) ∧ left <+: ps := by
  induction h generalizing kept lost with
  | nil =>
    obtain ⟨rfl, -⟩ := List.append_eq_nil_iff.1 hsplit.symm
    exact ⟨[], rfl, List.nil_prefix⟩
  | plain hquote hslash hcontrol h ih =>
    cases kept with
    | nil => exact ⟨[], rfl, List.nil_prefix⟩
    | cons c kept =>
      obtain ⟨rfl, hrest⟩ := List.cons.inj hsplit
      obtain ⟨left, hleft, hbefore⟩ := ih hrest
      refine ⟨_ :: left, ?_, List.cons_prefix_cons.2 ⟨rfl, hbefore⟩⟩
      rw [Quoted.pieces, if_neg hquote, if_neg hslash, if_neg hcontrol, hleft]
      rfl
  | @letter letter c ps text hletter h ih =>
    have hunit : letter ≠ 'u' := by
      rintro rfl
      cases hletter
    rcases kept with _ | ⟨slash, _ | ⟨second, kept⟩⟩
    · exact ⟨[], rfl, List.nil_prefix⟩
    · obtain ⟨rfl, -⟩ := List.cons.inj hsplit
      exact ⟨[], rfl, List.nil_prefix⟩
    · obtain ⟨rfl, hsecond⟩ := List.cons.inj hsplit
      obtain ⟨rfl, hrest⟩ := List.cons.inj hsecond
      obtain ⟨left, hleft, hbefore⟩ := ih hrest
      refine ⟨_ :: left, ?_, List.cons_prefix_cons.2 ⟨rfl, hbefore⟩⟩
      rw [pieces_letter hletter hunit, hleft]
      rfl
  | @unit n ps digits text hdigits h ih =>
    rcases kept with _ | ⟨slash, _ | ⟨second, kept⟩⟩
    · exact ⟨[], rfl, List.nil_prefix⟩
    · obtain ⟨rfl, -⟩ := List.cons.inj hsplit
      exact ⟨[], rfl, List.nil_prefix⟩
    · obtain ⟨rfl, hsecond⟩ := List.cons.inj hsplit
      obtain ⟨rfl, hrest⟩ := List.cons.inj hsecond
      rw [Quoted.pieces, if_neg (by decide), if_pos rfl, Quoted.pieces, if_pos rfl]
      -- The text is torn among the digits, or behind them.
      rcases List.append_eq_append_iff.1 hrest with ⟨behind, rfl, hbehind⟩ | ⟨among, hamong, -⟩
      · obtain ⟨left, hleft, hbefore⟩ := ih hbehind
        refine ⟨_ :: left, ?_, List.cons_prefix_cons.2 ⟨rfl, hbefore⟩⟩
        rw [pieces_digits hdigits, hleft]
        rfl
      · by_cases hnone : among = []
        · rw [hnone, List.append_nil] at hamong
          subst hamong
          obtain ⟨left, hleft, hbefore⟩ := ih (List.nil_append text).symm
          refine ⟨_ :: left, ?_, List.cons_prefix_cons.2 ⟨rfl, hbefore⟩⟩
          rw [← List.append_nil digits, pieces_digits hdigits, hleft]
          rfl
        · exact ⟨[], pieces_torn_digits hdigits hamong hnone, List.nil_prefix⟩

/-- A torn literal is cut short, at least if it has a text. -/
theorem Spells.read_torn {ps : List Piece} {text kept lost : List Char} (h : Spells ps text)
    (hsplit : text = kept ++ lost) : ∃ wanted, Quoted.read kept = .broken wanted .truncated ∧
      ((textOf ps).isSome → wanted = .truncated) := by
  obtain ⟨left, hleft, more, rfl⟩ := h.pieces_torn hsplit
  rw [Quoted.read, hleft]
  cases hjoin : join none left with
  | some joined => exact ⟨.truncated, rfl, fun _ => rfl⟩
  | none =>
    refine ⟨.malformed, rfl, fun htext => ?_⟩
    have hwhole : (join none (left ++ more)).isSome := by
      unfold textOf at htext
      split at htext
      · rename_i hjoined
        rw [hjoined]
        rfl
      · cases htext
    have hpart := join_isSome_of_append hwhole
    rw [hjoin] at hpart
    cases hpart

end Quoted

/-! ### Torn numbers -/

namespace Numeral

theorem DigitRun.of_append {digits lost : List Char} (h : DigitRun (digits ++ lost))
    (hdigits : digits ≠ []) : DigitRun digits :=
  ⟨hdigits, fun c hc => h.2 c (List.mem_append_left _ hc)⟩

/-- A literal that has lost its last digits, and what stands behind them, and is a literal still. -/
inductive Shortened : Numeral → Numeral → Prop
  | whole (negative : Bool) {digits : List Char} (hdigits : digits ≠ []) (lost fraction : List Char)
      (exponent : Option (Bool × List Char)) :
      Shortened ⟨negative, digits ++ lost, fraction, exponent⟩ ⟨negative, digits, [], none⟩
  | fraction (negative : Bool) (whole digits lost : List Char) (exponent : Option (Bool × List Char)) :
      Shortened ⟨negative, whole, digits ++ lost, exponent⟩ ⟨negative, whole, digits, none⟩
  | exponent (negative : Bool) (whole fraction : List Char) (sign : Bool) (digits : List Char)
      {lost : List Char} (hlost : lost ≠ []) :
      Shortened ⟨negative, whole, fraction, some (sign, digits ++ lost)⟩
        ⟨negative, whole, fraction, some (sign, digits)⟩

section Torn

variable {exponent : Option (Bool × List Char)} {text kept lost : List Char}

/-- A torn exponent lacks its digits, or has lost the last of them. -/
theorem ExponentText.torn (h : ExponentText exponent text) (hsplit : text = kept ++ lost)
    (hkept : kept ≠ []) (hlost : lost ≠ []) :
    (∀ soFar, readExponent soFar kept = .broken .truncated .malformed) ∨
      ∃ sign digits more, exponent = some (sign, digits ++ more) ∧ more ≠ [] ∧
        ExponentText (some (sign, digits)) kept := by
  have hmark : ∀ {e : Char} {more : List Char}, e = 'e' ∨ e = 'E' → (splitSign more).2 = [] →
      ∀ soFar, readExponent soFar (e :: more) = .broken .truncated .malformed := by
    intro e more he hnone soFar
    simp only [readExponent, if_pos he, hnone]
    rfl
  have hsigned : ∀ {e c : Char} {sign : Bool} {digits : List Char},
      e = 'e' ∨ e = 'E' → (splitSign [c]).2 = [] → DigitRun digits →
      (∀ {ds}, DigitRun ds → ExponentText (some (sign, ds)) (e :: c :: ds)) →
      e :: c :: digits = kept ++ lost →
      (∀ soFar, readExponent soFar kept = .broken .truncated .malformed) ∨
        ∃ sign' ds more, some (sign, digits) = some (sign', ds ++ more) ∧ more ≠ [] ∧
          ExponentText (some (sign', ds)) kept := by
    intro e c sign digits he hnone hdigits htext hsplit
    rcases kept with _ | ⟨e, _ | ⟨c, _ | ⟨digit, ds⟩⟩⟩
    · exact absurd rfl hkept
    · obtain ⟨rfl, -⟩ := List.cons.inj hsplit
      exact .inl (hmark he rfl)
    · obtain ⟨rfl, hrest⟩ := List.cons.inj hsplit
      obtain ⟨rfl, -⟩ := List.cons.inj hrest
      exact .inl (hmark he hnone)
    · obtain ⟨rfl, hrest⟩ := List.cons.inj hsplit
      obtain ⟨rfl, rfl⟩ := List.cons.inj hrest
      exact .inr ⟨sign, digit :: ds, lost, rfl, hlost, htext (hdigits.of_append (List.cons_ne_nil _ _))⟩
  cases h with
  | none => exact absurd (List.append_eq_nil_iff.1 hsplit.symm).1 hkept
  | plus he hdigits => exact hsigned he rfl hdigits (.plus he) hsplit
  | minus he hdigits => exact hsigned he rfl hdigits (.minus he) hsplit
  | unsigned he hdigits =>
    rcases kept with _ | ⟨e, _ | ⟨digit, digits⟩⟩
    · exact absurd rfl hkept
    · obtain ⟨rfl, -⟩ := List.cons.inj hsplit
      exact .inl (hmark he rfl)
    · obtain ⟨rfl, rfl⟩ := List.cons.inj hsplit
      exact .inr ⟨false, digit :: digits, lost, rfl, hlost,
        .unsigned he (hdigits.of_append (List.cons_ne_nil _ _))⟩

/-- What is left of a literal is cut short, or has lost its last digits only. -/
def Leaves (n : Numeral) (kept : List Char) : Prop :=
  read kept = .broken .truncated .malformed ∨ ∃ n', read kept = .done n' [] ∧ Shortened n n'

theorem Spells.leaves {n n' : Numeral} (h : Spells n' kept) (hshorter : Shortened n n') :
    Leaves n kept := by
  have hread := h.read stops_nil
  rw [List.append_nil] at hread
  exact .inr ⟨n', hread, hshorter⟩

section Parts

variable (negative : Bool) {whole fraction point power : List Char} (hwhole : DigitRun whole)
  (hzero : ¬(whole.head? = some '0' ∧ 1 < whole.length))

include hwhole hzero

/-- A literal that is torn behind the point. -/
theorem leaves_fraction {digits more : List Char} (hsplit : fraction = digits ++ more)
    (hpoint : FractionText digits point) (exponent : Option (Bool × List Char)) :
    Leaves ⟨negative, whole, fraction, exponent⟩ (signText negative ++ (whole ++ point)) := by
  subst hsplit
  have hspells := Spells.literal negative hwhole hzero hpoint .none
  rw [List.append_nil] at hspells
  exact hspells.leaves (.fraction negative whole digits more exponent)

/-- A literal that is torn before the point. -/
theorem leaves_whole (hsplit : whole = kept ++ lost) (hkept : signText negative ++ kept ≠ [])
    (fraction : List Char) (exponent : Option (Bool × List Char)) :
    Leaves ⟨negative, whole, fraction, exponent⟩ (signText negative ++ kept) := by
  by_cases hnone : kept = []
  · subst hnone
    cases negative with
    | false => exact absurd rfl hkept
    | true => exact .inl rfl
  · subst hsplit
    have hzero' : ¬(kept.head? = some '0' ∧ 1 < kept.length) := by
      rintro ⟨hhead, hlength⟩
      rw [List.head?_append_of_ne_nil _ hnone, List.length_append] at hzero
      exact hzero ⟨hhead, by omega⟩
    have hspells := Spells.literal negative (hwhole.of_append hnone) hzero' .none .none
    rw [List.append_nil, List.append_nil] at hspells
    exact hspells.leaves (.whole negative hnone lost fraction exponent)

/-- A literal that is torn at the point or behind it. -/
theorem leaves_point (hfraction : FractionText fraction point) (hsplit : point = kept ++ lost)
    (exponent : Option (Bool × List Char)) :
    Leaves ⟨negative, whole, fraction, exponent⟩ (signText negative ++ (whole ++ kept)) := by
  have hnone : Leaves ⟨negative, whole, fraction, exponent⟩ (signText negative ++ (whole ++ [])) := by
    rw [List.append_nil]
    refine leaves_whole negative hwhole hzero (List.append_nil whole).symm (fun hnil => ?_) fraction
      exponent
    exact hwhole.1 (List.append_eq_nil_iff.1 hnil).2
  cases hfraction with
  | none =>
    obtain ⟨rfl, -⟩ := List.append_eq_nil_iff.1 hsplit.symm
    exact hnone
  | point hrun =>
    rcases kept with _ | ⟨mark, _ | ⟨digit, digits⟩⟩
    · exact hnone
    · obtain ⟨rfl, -⟩ := List.cons.inj hsplit
      left
      rw [read_signed negative hwhole, readUnsigned_of_digits hwhole (noDigit_cons (by decide) []) hzero]
      rfl
    · obtain ⟨rfl, hrest⟩ := List.cons.inj hsplit
      subst hrest
      exact leaves_fraction negative hwhole hzero rfl
        (.point (hrun.of_append (List.cons_ne_nil _ _))) exponent

/-- A literal that is torn in its exponent. -/
theorem leaves_power (hfraction : FractionText fraction point) (hexponent : ExponentText exponent power)
    (hsplit : power = kept ++ lost) (hlost : lost ≠ []) :
    Leaves ⟨negative, whole, fraction, exponent⟩ (signText negative ++ (whole ++ (point ++ kept))) := by
  by_cases hnone : kept = []
  · rw [hnone, List.append_nil]
    exact leaves_fraction negative hwhole hzero (List.append_nil fraction).symm hfraction exponent
  · rcases hexponent.torn hsplit hnone hlost with hshort | ⟨sign, digits, more, rfl, hmore, hkept⟩
    · have hhead : kept.head? = power.head? := by rw [hsplit, List.head?_append_of_ne_nil _ hnone]
      have hend : NoDigit kept := by
        have hend := noDigit_exponent hexponent stops_nil.noDigit
        rwa [List.append_nil, NoDigit, ← hhead] at hend
      have hpoint : kept.head? ≠ some '.' := by
        have hpoint := head?_exponent hexponent stops_nil.head?
        rwa [List.append_nil, ← hhead] at hpoint
      left
      rw [read_signed negative hwhole,
        readUnsigned_of_digits hwhole (noDigit_fraction hfraction hend) hzero,
        readFraction_of_point hfraction hend hpoint]
      exact hshort _
    · have hspells := Spells.literal negative hwhole hzero hfraction hkept
      exact hspells.leaves (.exponent negative whole fraction sign digits hmore)

end Parts

/-- A torn literal is cut short, or has lost its last digits. -/
theorem Spells.read_torn {n : Numeral} (h : Spells n text) (hsplit : text = kept ++ lost)
    (hkept : kept ≠ []) (hlost : lost ≠ []) : Leaves n kept := by
  cases h with
  | @literal negative whole fraction point power exponent hwhole hzero hfraction hexponent =>
    rcases List.append_eq_append_iff.1 hsplit with ⟨unsigned, rfl, hunsigned⟩ | ⟨sign, hsign, -⟩
    · rcases List.append_eq_append_iff.1 hunsigned with ⟨behind, rfl, hbehind⟩ | ⟨more, hmore, -⟩
      · rcases List.append_eq_append_iff.1 hbehind with ⟨power', rfl, hpower⟩ | ⟨more, hpoint, -⟩
        · exact leaves_power negative hwhole hzero hfraction hexponent hpower hlost
        · exact leaves_point negative hwhole hzero hfraction hpoint exponent
      · exact leaves_whole negative hwhole hzero hmore hkept fraction exponent
    · -- Nothing but the sign is left.
      cases negative with
      | false => exact absurd (List.append_eq_nil_iff.1 hsign.symm).1 hkept
      | true =>
        cases kept with
        | nil => exact absurd rfl hkept
        | cons c kept =>
          obtain ⟨rfl, hrest⟩ := List.cons.inj hsign
          obtain ⟨rfl, -⟩ := List.append_eq_nil_iff.1 hrest.symm
          exact .inl rfl

end Torn

end Numeral

/-! ### Torn token sequences -/

namespace Token

/-- What is left of a token that is torn. -/
inductive Torn : Token → Token → Prop
  | word (w : Word) (start : Start) : Torn (.word w) (.broken start .truncated .truncated)
  | string {text : Option (List Char)} {wanted : Fault} (h : text.isSome → wanted = .truncated) :
      Torn (.string text) (.broken .string wanted .truncated)
  | number (n : Numeral) : Torn (.number n) (.broken .number .truncated .malformed)
  | digits {n n' : Numeral} (h : n.Shortened n') : Torn (.number n) (.number n')

/-- What is left of a sequence of tokens that is torn. -/
inductive TornTokens : List Token → List Token → Prop
  | gone (t : Token) (ts : List Token) : TornTokens (t :: ts) []
  | torn {t t' : Token} (h : t.Torn t') (ts : List Token) : TornTokens (t :: ts) [t']
  | kept (t : Token) {ts us : List Token} (h : TornTokens ts us) : TornTokens (t :: ts) (t :: us)

section Torn

variable {c : Char} {cs : List Char} {wanted ignored : Fault}

theorem scan_torn_string (h : Quoted.read cs = .broken wanted ignored) :
    scan ('"' :: cs) = [.broken .string wanted ignored] := by
  have hblank : isBlank '"' = false := rfl
  have hmark : mark? '"' = none := rfl
  rw [scan, hblank, if_neg Bool.false_ne_true, hmark]
  simp only [if_true]
  split
  · rename_i hread
    rw [h] at hread
    cases hread
  · rename_i hread
    rw [h] at hread
    obtain ⟨rfl, rfl⟩ := Quoted.Reading.broken.inj hread
    rfl

theorem scan_torn_number (hstart : c = '-' ∨ c.isDigit)
    (h : Numeral.read (c :: cs) = .broken wanted ignored) :
    scan (c :: cs) = [.broken .number wanted ignored] := by
  obtain ⟨hblank, hmark, hquote⟩ := number_start hstart
  rw [scan, hblank, if_neg Bool.false_ne_true, hmark]
  simp only [if_neg hquote, if_pos hstart]
  split
  · rename_i hread
    rw [h] at hread
    cases hread
  · rename_i hread
    rw [h] at hread
    obtain ⟨rfl, rfl⟩ := Numeral.Reading.broken.inj hread
    rfl

theorem scan_torn_word {start : Start} {w : Word} {kept lost : List Char}
    (hword : word? c = some (start, w, kept ++ lost)) (hlost : lost ≠ []) :
    scan (c :: kept) = [.broken start .truncated .truncated] := by
  have hspell : ∀ ls : List Char, spell (ls ++ lost) ls = .error .truncated := by
    intro ls
    induction ls with
    | nil =>
      cases lost with
      | nil => exact absurd rfl hlost
      | cons l lost => rfl
    | cons l ls ih => rw [List.cons_append, spell, if_pos rfl, ih]
  obtain ⟨hblank, hmark, hquote, hnumber⟩ := word_start hword
  rw [scan, hblank, if_neg Bool.false_ne_true, hmark]
  simp only [if_neg hquote, if_neg hnumber, hword]
  split
  · rename_i hread
    rw [hspell] at hread
    cases hread
  · rename_i hread
    rw [hspell] at hread
    obtain rfl := Except.error.inj hread
    rfl

theorem Spells.start {n : Numeral} (h : n.Spells (c :: cs)) : c = '-' ∨ c.isDigit := by
  have hread := h.read Numeral.stops_nil
  rw [List.append_nil] at hread
  exact digit_or_minus hread

/-- A torn text of a token is cut into what is left of the token. -/
theorem Spells.scan_torn {t : Token} {text kept lost : List Char} (h : t.Spells text)
    (hsplit : text = kept ++ lost) (hkept : kept ≠ []) (hlost : lost ≠ []) :
    ∃ t', t.Torn t' ∧ Token.scan kept = [t'] := by
  obtain ⟨first, kept, rfl⟩ := List.exists_cons_of_ne_nil hkept
  cases h with
  | mark hm =>
    obtain ⟨-, hrest⟩ := List.cons.inj hsplit
    exact absurd (List.append_eq_nil_iff.1 hrest.symm).2 hlost
  | word hw =>
    obtain ⟨rfl, hrest⟩ := List.cons.inj hsplit
    subst hrest
    exact ⟨_, .word _ _, scan_torn_word hw hlost⟩
  | number hn =>
    have hstart : first = '-' ∨ first.isDigit := by
      subst hsplit
      exact Spells.start hn
    rcases hn.read_torn hsplit hkept hlost with hread | ⟨n', hread, hshorter⟩
    · exact ⟨_, .number _, scan_torn_number hstart hread⟩
    · refine ⟨_, .digits hshorter, ?_⟩
      rw [scan_number hread, Token.scan]
  | @string ps inner hps =>
    obtain ⟨rfl, hrest⟩ := List.cons.inj hsplit
    -- The closing quote is lost at least.
    obtain ⟨more, hmore⟩ : ∃ more, inner = kept ++ more := by
      rcases List.append_eq_append_iff.1 hrest with ⟨behind, rfl, hbehind⟩ | ⟨more, hmore, -⟩
      · cases behind with
        | nil => exact ⟨[], by simp⟩
        | cons quote behind =>
          obtain ⟨-, hnone⟩ := List.cons.inj hbehind
          exact absurd (List.append_eq_nil_iff.1 hnone.symm).2 hlost
      · exact ⟨more, hmore⟩
    obtain ⟨wanted, hread, htext⟩ := hps.read_torn hmore
    exact ⟨_, .string htext, scan_torn_string hread⟩

theorem ends_nil (t : Token) : t.Ends [] := by
  cases t with
  | number n => exact Numeral.stops_nil
  | mark m | word w | string text | broken start wanted ignored => exact trivial

theorem Ends.of_append {t : Token} {kept lost : List Char} (h : t.Ends (kept ++ lost)) : t.Ends kept := by
  cases t with
  | number n =>
    cases kept with
    | nil => exact Numeral.stops_nil
    | cons c kept => exact h
  | mark m | word w | string text | broken start wanted ignored => exact trivial

/-- A torn text is cut into what is left of its tokens, unless it has lost nothing but blanks. -/
theorem Cut.torn {text : List Char} {ts : List Token} (h : Cut text ts) {kept lost : List Char}
    (hsplit : text = kept ++ lost) :
    TornTokens ts (Token.scan kept) ∨ ∀ c ∈ lost, isBlank c := by
  induction h generalizing kept lost with
  | nil =>
    obtain ⟨-, rfl⟩ := List.append_eq_nil_iff.1 hsplit.symm
    exact .inr fun c hc => absurd hc List.not_mem_nil
  | @blank c cs ts hc h ih =>
    cases kept with
    | nil =>
      rcases ih (List.nil_append cs).symm with htorn | hblank
      · exact .inl htorn
      · refine .inr ?_
        rw [← show c :: cs = lost from hsplit]
        exact List.forall_mem_cons.2 ⟨hc, hblank⟩
    | cons first kept =>
      obtain ⟨rfl, hrest⟩ := List.cons.inj hsplit
      rw [scan_blank hc]
      exact ih hrest
  | @token t ts text rest ht hends h ih =>
    rcases List.append_eq_append_iff.1 hsplit with ⟨behind, rfl, hrest⟩ | ⟨more, htext, rfl⟩
    · rw [hrest] at hends
      rw [ht.scan hends.of_append]
      exact (ih hrest).imp_left (.kept t)
    · by_cases hnone : more = []
      · -- Torn right behind the token.
        rw [hnone, List.append_nil] at htext
        have hscan := ht.scan t.ends_nil
        rw [List.append_nil, htext] at hscan
        rw [hscan, hnone]
        exact (ih (List.nil_append rest).symm).imp_left (.kept t)
      · by_cases hkept : kept = []
        · rw [hkept, Token.scan]
          exact .inl (.gone t ts)
        · obtain ⟨t', htorn, hscan⟩ := ht.scan_torn htext hkept hnone
          rw [hscan]
          exact .inl (.torn htorn ts)

end Torn

end Token

end IdlGen.Json
