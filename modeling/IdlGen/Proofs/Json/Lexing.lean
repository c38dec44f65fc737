import IdlGen.Proofs.Json.Tokens

/-!
# Texts of tokens

A text is made of the spellings of its tokens, with blanks between them (`Cut`). A string can be spelled in
many ways, and a number's text ends where something follows that is not a part of it. Every text that is cut
into whole tokens is made of them in this way, and every text made of them is cut into them again.
-/

namespace IdlGen.Json.Token

/-- The texts of a token. -/
inductive Spells : Token → List Char → Prop
  | mark {c : Char} {m : Mark} (hm : mark? c = some m) : Spells (.mark m) [c]
  | word {c : Char} {start : Start} {w : Word} {letters : List Char}
      (hw : word? c = some (start, w, letters)) :
      Spells (.word w) (c :: letters)
  | number {n : Numeral} {text : List Char} (hn : n.Spells text) : Spells (.number n) text
  | string {ps : List Quoted.Piece} {text : List Char} (hps : Quoted.Spells ps text) :
      Spells (.string (Quoted.textOf ps)) ('"' :: (text ++ ['"']))

/-- Whether the text behind a token lets it end. -/
def Ends : Token → List Char → Prop
  | .number _, rest => Numeral.Stops rest
  | _, _ => True

/-- A text of these tokens. -/
inductive Cut : List Char → List Token → Prop
  | nil : Cut [] []
  | blank {c : Char} {cs : List Char} {ts : List Token} (hc : isBlank c) (h : Cut cs ts) : Cut (c :: cs) ts
  | token {t : Token} {ts : List Token} {text rest : List Char} (ht : t.Spells text) (hends : t.Ends rest)
      (h : Cut rest ts) : Cut (text ++ rest) (t :: ts)

/-- Not broken off or ill formed. -/
def Intact : Token → Prop
  | .broken _ _ _ => False
  | _ => True

/-! ### Cutting what is spelled -/

theorem isBlank_of_mark {c : Char} {m : Mark} (hm : mark? c = some m) : isBlank c = false := by
  cases hblank : isBlank c with
  | false => rfl
  | true =>
    simp only [isBlank, Bool.or_eq_true, beq_iff_eq] at hblank
    rcases hblank with ((rfl | rfl) | rfl) | rfl <;> cases hm

theorem Spells.scan {t : Token} {text rest : List Char} (h : t.Spells text) (hends : t.Ends rest) :
    scan (text ++ rest) = t :: scan rest := by
  cases h with
  | mark hm => exact scan_mark (isBlank_of_mark hm) hm rest
  | word hw => exact scan_word _ hw rest
  | string hps =>
    rw [List.cons_append, List.append_assoc]
    exact scan_string (hps.read rest)
  | number hn =>
    obtain ⟨c, cs, rfl⟩ := List.exists_cons_of_ne_nil hn.ne_nil
    exact scan_number (hn.read hends)

theorem Cut.scan {text : List Char} {ts : List Token} (h : Cut text ts) : scan text = ts := by
  induction h with
  | nil => rw [Token.scan]
  | blank hc h ih => rw [scan_blank hc, ih]
  | token ht hends h ih => rw [ht.scan hends, ih]

/-! ### Spelling what is cut -/

theorem spells_of_spell {letters cs rest : List Char} (h : spell letters cs = .ok rest) :
    cs = letters ++ rest := by
  induction letters generalizing cs with
  | nil => cases cs <;> exact Except.ok.inj h
  | cons l letters ih =>
    cases cs with
    | nil => cases h
    | cons c cs =>
      rw [spell] at h
      split at h
      · rename_i hletter
        rw [hletter, ih h, List.cons_append]
      · cases h

/-- A text of whole tokens does not begin with what could continue a number. -/
theorem stops_of_intact {rest : List Char} (hdigit : Numeral.NoDigit rest) (h : ∀ t ∈ scan rest, t.Intact) :
    Numeral.Stops rest := by
  cases rest with
  | nil => exact Numeral.stops_nil
  | cons c rest =>
    have hother : ∀ d : Char, isBlank d = false → mark? d = none → d ≠ '"' → ¬(d = '-' ∨ d.isDigit) →
        word? d = none → c ≠ d := by
      rintro d hblank hmark hquote hnumber hword rfl
      have hscan : scan (c :: rest) = [.broken .nothing .malformed .malformed] := by
        rw [scan, hblank, if_neg Bool.false_ne_true, hmark]
        simp only [if_neg hquote, if_neg hnumber, hword]
      rw [hscan] at h
      exact h _ List.mem_cons_self
    exact Numeral.stops_cons (hdigit c rfl) (hother '.' rfl rfl (by decide) (by decide) rfl)
      (hother 'e' rfl rfl (by decide) (by decide) rfl) (hother 'E' rfl rfl (by decide) (by decide) rfl) rest

/-- A text that is cut into whole tokens is a text of them. -/
theorem cut_of_intact {cs : List Char} (h : ∀ t ∈ scan cs, t.Intact) : Cut cs (scan cs) := by
  fun_induction scan cs with
  | case1 => exact .nil
  | case2 c cs hblank ih => exact .blank hblank (ih h)
  | case3 c cs hblank m hm ih =>
    obtain ⟨-, hrest⟩ := List.forall_mem_cons.1 h
    exact .token (.mark hm) trivial (ih hrest)
  | case4 cs text rest hread hshorter hblank hmark ih =>
    obtain ⟨-, hrest⟩ := List.forall_mem_cons.1 h
    obtain ⟨ps, inner, rfl, hps, rfl⟩ := Quoted.spells_of_read hread
    have hcut := Cut.token (.string hps) trivial (ih hrest)
    simpa using hcut
  | case6 c cs hblank hmark hquote hstart n rest hread hshorter ih =>
    obtain ⟨-, hrest⟩ := List.forall_mem_cons.1 h
    obtain ⟨text, hsplit, hn, hdigit⟩ := Numeral.spells_of_read hread
    rw [hsplit]
    exact .token (.number hn) (stops_of_intact hdigit hrest) (ih hrest)
  | case9 c cs hblank hmark hquote hstart start w letters hword rest hspell hshorter ih =>
    obtain ⟨-, hrest⟩ := List.forall_mem_cons.1 h
    rw [spells_of_spell hspell]
    exact .token (.word hword) trivial (ih hrest)
  | case5 | case7 | case8 | case10 => exact absurd (h _ List.mem_cons_self) id

end IdlGen.Json.Token
