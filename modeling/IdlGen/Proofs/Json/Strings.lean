import IdlGen.Json.Quoted

/-!
# String literals read back

Whatever a character is written as inside a literal makes one piece, and that piece joins to the
character again. So the literal of a text is read as the text, and what stands behind its closing
quote is left. Other texts than the one that is written spell the same pieces (`Spells`), or pieces that
join to the same text, and reading makes no difference between them.
-/

namespace IdlGen.Json.Quoted

/-! ### Pieces -/

theorem pieces_letter {letter c : Char} (hletter : letterEscape? letter = some c)
    (hunit : letter ≠ 'u') (cs : List Char) :
    pieces .plain ('\\' :: letter :: cs) = consPiece (.char c) (pieces .plain cs) := by
  rw [pieces, if_neg (by decide), if_pos rfl, pieces, if_neg hunit, hletter]

theorem pieces_hex {c : Char} {digit : Nat} (hdigit : hexValue? c = some digit) (count value : Nat)
    (cs : List Char) :
    pieces (.hex count value) (c :: cs) =
      if count = 3 then consPiece (.unit (value * 16 + digit)) (pieces .plain cs)
      else pieces (.hex (count + 1) (value * 16 + digit)) cs := by
  rw [pieces, hdigit]

theorem pieces_unit {n : Nat} (hn : n < 0x20) (cs : List Char) :
    pieces .plain ('\\' :: 'u' :: '0' :: '0' :: hexDigit (n / 16) :: hexDigit n :: cs) =
      consPiece (.unit n) (pieces .plain cs) := by
  have hdigits : ∀ n < 0x20, hexValue? (hexDigit (n / 16)) = some (n / 16) ∧
      hexValue? (hexDigit n) = some (n % 16) := by decide
  obtain ⟨hhigh, hlow⟩ := hdigits n hn
  have hzero : hexValue? '0' = some 0 := rfl
  have hnumber : ((0 * 16 + 0) * 16 + 0) * 16 + n / 16 = n / 16 := by omega
  have hwhole : n / 16 * 16 + n % 16 = n := by omega
  rw [pieces, if_neg (by decide), if_pos rfl, pieces, if_pos rfl, pieces_hex hzero,
    if_neg (by decide), pieces_hex hzero, if_neg (by decide), pieces_hex hhigh, if_neg (by decide),
    pieces_hex hlow, if_pos rfl, hnumber, hwhole]

/-- A character is written behind a backslash by a letter of its own, by its number, or as it is. -/
theorem escape_cases (c : Char) :
    (∃ letter, escape c = ['\\', letter] ∧ letterEscape? letter = some c ∧ letter ≠ 'u') ∨
      (c.toNat < 0x20 ∧
        escape c = ['\\', 'u', '0', '0', hexDigit (c.toNat / 16), hexDigit c.toNat]) ∨
      (c ≠ '"' ∧ c ≠ '\\' ∧ ¬c.toNat < 0x20 ∧ escape c = [c]) := by
  by_cases hletter : c = '"' ∨ c = '\\' ∨ c = '\x08' ∨ c = '\x0C' ∨ c = '\n' ∨ c = '\r' ∨ c = '\t'
  · left
    rcases hletter with rfl | rfl | rfl | rfl | rfl | rfl | rfl <;>
      exact ⟨_, rfl, rfl, by decide⟩
  · right
    simp only [not_or] at hletter
    obtain ⟨hquote, hslash, hbackspace, hfeed, hline, hreturn, htab⟩ := hletter
    rw [escape, if_neg hquote, if_neg hslash, if_neg hbackspace, if_neg hfeed, if_neg hline,
      if_neg hreturn, if_neg htab]
    by_cases hcontrol : c.toNat < 0x20
    · exact .inl ⟨hcontrol, if_pos hcontrol⟩
    · exact .inr ⟨hquote, hslash, hcontrol, if_neg hcontrol⟩

/-- A written character is one piece, which joins to the character. -/
theorem pieces_escape (c : Char) :
    ∃ p, (∀ cs, pieces .plain (escape c ++ cs) = consPiece p (pieces .plain cs)) ∧
      ∀ more, join none (p :: more) = (join none more).map fun r => (c :: r.1, r.2) := by
  rcases escape_cases c with
    ⟨letter, hwritten, hletter, hunit⟩ | ⟨hcontrol, hwritten⟩ | ⟨hquote, hslash, hcontrol, hwritten⟩
  · rw [hwritten]
    exact ⟨.char c, fun cs => pieces_letter hletter hunit cs, fun more => rfl⟩
  · rw [hwritten]
    refine ⟨.unit c.toNat, fun cs => pieces_unit hcontrol cs, fun more => ?_⟩
    have hhigh : isHigh c.toNat = false := by
      simp only [isHigh, Bool.and_eq_false_iff, decide_eq_false_iff_not]
      omega
    have hlow : isLow c.toNat = false := by
      simp only [isLow, Bool.and_eq_false_iff, decide_eq_false_iff_not]
      omega
    rw [join, hhigh, hlow, Char.ofNat_toNat]
    rfl
  · rw [hwritten]
    refine ⟨.char c, fun cs => ?_, fun more => rfl⟩
    rw [List.singleton_append, pieces, if_neg hquote, if_neg hslash, if_neg hcontrol]

/-! ### Literals -/

theorem pieces_escapes (text rest : List Char) :
    ∃ ps, pieces .plain (text.flatMap escape ++ '"' :: rest) = (ps, .closed rest) ∧
      join none ps = some (text, none) := by
  induction text with
  | nil => exact ⟨[], rfl, rfl⟩
  | cons c text ih =>
    obtain ⟨ps, hcut, hjoin⟩ := ih
    obtain ⟨p, hpiece, hback⟩ := pieces_escape c
    refine ⟨p :: ps, ?_, ?_⟩
    · rw [List.flatMap_cons, List.append_assoc, hpiece, hcut]
      rfl
    · rw [hback, hjoin]
      rfl

/-- The literal of a text is read as that text. -/
theorem read_escapes (text rest : List Char) :
    read (text.flatMap escape ++ '"' :: rest) = .done (some text) rest := by
  obtain ⟨ps, hcut, hjoin⟩ := pieces_escapes text rest
  rw [read, hcut, hjoin]
  rfl

/-! ### Every spelling -/

/-- The digits that complete the number of a unit, behind `count` digits that spell `value`. -/
inductive HexDigits : Nat → Nat → List Char → Nat → Prop
  | last {value digit : Nat} {c : Char} (hc : hexValue? c = some digit) :
      HexDigits 3 value [c] (value * 16 + digit)
  | more {count value digit n : Nat} {c : Char} {cs : List Char} (hcount : count ≠ 3)
      (hc : hexValue? c = some digit) (h : HexDigits (count + 1) (value * 16 + digit) cs n) :
      HexDigits count value (c :: cs) n

/-- What stands between the quotes of a literal, and the pieces that it is made of. -/
inductive Spells : List Piece → List Char → Prop
  | nil : Spells [] []
  | plain {c : Char} {ps : List Piece} {text : List Char} (hquote : c ≠ '"') (hslash : c ≠ '\\')
      (hcontrol : ¬c.toNat < 0x20) (h : Spells ps text) : Spells (.char c :: ps) (c :: text)
  | letter {letter c : Char} {ps : List Piece} {text : List Char} (hletter : letterEscape? letter = some c)
      (h : Spells ps text) : Spells (.char c :: ps) ('\\' :: letter :: text)
  | unit {n : Nat} {ps : List Piece} {digits text : List Char} (hdigits : HexDigits 0 0 digits n)
      (h : Spells ps text) : Spells (.unit n :: ps) ('\\' :: 'u' :: (digits ++ text))

/-- The text of a whole literal: that of its pieces, unless a half of a surrogate pair lacks its partner. -/
def textOf (ps : List Piece) : Option (List Char) :=
  match join none ps with
  | some (text, none) => some text
  | _ => none

theorem finish_closed (ps : List Piece) (rest : List Char) :
    finish (.closed rest) (join none ps) = .done (textOf ps) rest := by
  unfold finish textOf
  split <;> simp_all

theorem pieces_digits {count value n : Nat} {digits : List Char} (h : HexDigits count value digits n)
    (cs : List Char) : pieces (.hex count value) (digits ++ cs) =
      consPiece (.unit n) (pieces .plain cs) := by
  induction h with
  | last hc => rw [List.singleton_append, pieces_hex hc, if_pos rfl]
  | more hcount hc h ih => rw [List.cons_append, pieces_hex hc, if_neg hcount, ih]

theorem Spells.pieces {ps : List Piece} {text : List Char} (h : Spells ps text) (rest : List Char) :
    pieces .plain (text ++ '"' :: rest) = (ps, .closed rest) := by
  induction h with
  | nil => rfl
  | plain hquote hslash hcontrol h ih =>
    rw [List.cons_append, Quoted.pieces, if_neg hquote, if_neg hslash, if_neg hcontrol, ih]
    rfl
  | @letter letter c ps text hletter h ih =>
    have hunit : letter ≠ 'u' := by
      rintro rfl
      cases hletter
    rw [List.cons_append, List.cons_append, pieces_letter hletter hunit, ih]
    rfl
  | unit hdigits h ih =>
    rw [List.cons_append, List.cons_append, List.append_assoc, Quoted.pieces, if_neg (by decide),
      if_pos rfl,
      Quoted.pieces, if_pos rfl, pieces_digits hdigits, ih]
    rfl

theorem digits_of_pieces {count value : Nat} {cs rest : List Char} {ps : List Piece} (hcount : count ≤ 3)
    (h : Quoted.pieces (.hex count value) cs = (ps, .closed rest)) :
    ∃ digits n more left, cs = digits ++ left ∧ HexDigits count value digits n ∧ ps = .unit n :: more ∧
      Quoted.pieces .plain left = (more, .closed rest) := by
  induction cs generalizing count value with
  | nil => cases h
  | cons c cs ih =>
    rw [Quoted.pieces] at h
    split at h
    · cases h
    · rename_i digit hc
      split at h
      · rename_i hlast
        subst hlast
        obtain ⟨rfl, hending⟩ := Prod.mk.inj h
        exact ⟨[c], _, _, cs, rfl, .last hc, rfl, Prod.ext rfl hending⟩
      · rename_i hmore
        obtain ⟨digits, n, more, left, rfl, hdigits, rfl, hleft⟩ := ih (by omega) h
        exact ⟨c :: digits, n, more, left, rfl, .more hmore hc hdigits, rfl, hleft⟩

/-- What is read as a whole literal is spelled by its pieces, up to a closing quote. -/
theorem spells_of_pieces {cs rest : List Char} {ps : List Piece}
    (h : Quoted.pieces .plain cs = (ps, .closed rest)) :
    ∃ text, cs = text ++ '"' :: rest ∧ Spells ps text := by
  induction hlength : cs.length using Nat.strongRecOn generalizing cs ps with
  | ind length ih =>
    subst hlength
    cases cs with
    | nil => cases h
    | cons c cs =>
      rw [Quoted.pieces] at h
      split at h
      · rename_i hquote
        obtain ⟨rfl, hending⟩ := Prod.mk.inj h
        obtain rfl := Ending.closed.inj hending
        exact ⟨[], by rw [hquote]; rfl, .nil⟩
      · rename_i hquote
        split at h
        · rename_i hslash
          subst hslash
          cases cs with
          | nil => cases h
          | cons letter cs =>
            rw [Quoted.pieces] at h
            split at h
            · rename_i hunit
              subst hunit
              obtain ⟨digits, n, more, left, rfl, hdigits, rfl, hleft⟩ := digits_of_pieces (by decide) h
              obtain ⟨text, rfl, htext⟩ := ih left.length
                (by simp only [List.length_cons, List.length_append]; omega) hleft rfl
              exact ⟨'\\' :: 'u' :: (digits ++ text), by simp, .unit hdigits htext⟩
            · split at h
              · rename_i hletter
                obtain ⟨rfl, hending⟩ := Prod.mk.inj h
                obtain ⟨text, rfl, htext⟩ := ih cs.length (by simp only [List.length_cons]; omega)
                  (Prod.ext rfl hending) rfl
                exact ⟨'\\' :: letter :: text, rfl, .letter hletter htext⟩
              · cases h
        · rename_i hslash
          split at h
          · cases h
          · rename_i hcontrol
            obtain ⟨rfl, hending⟩ := Prod.mk.inj h
            obtain ⟨text, rfl, htext⟩ := ih cs.length (by simp) (Prod.ext rfl hending) rfl
            exact ⟨c :: text, rfl, .plain hquote hslash hcontrol htext⟩

theorem Spells.read {ps : List Piece} {text : List Char} (h : Spells ps text) (rest : List Char) :
    read (text ++ '"' :: rest) = .done (textOf ps) rest := by
  rw [Quoted.read, h.pieces]
  exact finish_closed ps rest

/-- What is read as a literal is spelled by pieces that join to its text. -/
theorem spells_of_read {cs rest : List Char} {text : Option (List Char)}
    (h : Quoted.read cs = .done text rest) :
    ∃ ps inner, cs = inner ++ '"' :: rest ∧ Spells ps inner ∧ textOf ps = text := by
  rw [Quoted.read] at h
  generalize hcut : Quoted.pieces .plain cs = cut at h
  obtain ⟨ps, ending⟩ := cut
  cases ending with
  | broken fault => cases hjoin : join none ps <;> simp [finish, hjoin] at h
  | closed left =>
    obtain ⟨rfl, rfl⟩ := Reading.done.inj ((finish_closed ps left).symm.trans h)
    obtain ⟨inner, hsplit, hinner⟩ := spells_of_pieces hcut
    exact ⟨ps, inner, hsplit, hinner, rfl⟩

end IdlGen.Json.Quoted
