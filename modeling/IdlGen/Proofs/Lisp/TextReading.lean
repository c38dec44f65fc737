import IdlGen.Lisp.Literal
import IdlGen.Proofs.Lisp.LayoutReading
import IdlGen.Proofs.Lisp.Names

/-!
# Reading atoms and strings

Names, keywords and numbers are read as atoms, and everything between double quotes as a string:
names as they are, string literals as the text that was quoted, and documentation as the text with
single quotes in place of double ones.
-/

namespace IdlGen.Lisp.Reader

/-! ### Atoms -/

theorem run_atom {cs : List Char} (hcs : cs.all isAtomChar) (soFar : List Char) (level : Level)
    (outer : List Level) :
    run cs ⟨.atom soFar, level, outer⟩ = some ⟨.atom (cs.reverse ++ soFar), level, outer⟩ := by
  induction cs generalizing soFar with
  | nil => rfl
  | cons c cs ih =>
    rw [List.all_cons, Bool.and_eq_true] at hcs
    have hstep : step ⟨.atom soFar, level, outer⟩ c = some ⟨.atom (c :: soFar), level, outer⟩ := by
      simp only [step, hcs.1, if_true]
    rw [run_cons, hstep, Option.bind_some, ih hcs.2]
    simp

theorem isBlank_eq_false_of_isAtomChar {c : Char} (hc : isAtomChar c) : isBlank c = false := by
  cases hblank : isBlank c with
  | false => rfl
  | true =>
    have hcases : (((c = ' ' ∨ c = '\n') ∨ c = '\t') ∨ c = '\r') ∨ c = '\x0C' := by
      simpa only [isBlank, Bool.or_eq_true, beq_iff_eq] using hblank
    rcases hcases with (((rfl | rfl) | rfl) | rfl) | rfl <;> exact absurd hc (by decide)

theorem yields_atom {t : String} (ht : Atomic t) : Yields (.text t) [.atom t] := by
  rintro ⟨mode, level, outer⟩ hs
  obtain rfl : mode = .between := hs
  obtain ⟨hne, hall⟩ := ht
  cases hchars : t.toList with
  | nil => exact absurd (String.toList_eq_nil_iff.1 hchars) hne
  | cons c cs =>
    rw [hchars, List.all_cons, Bool.and_eq_true] at hall
    refine ⟨⟨.atom (cs.reverse ++ [c]), level, outer⟩, ?_, ?_⟩
    · have hstep : step ⟨.between, level, outer⟩ c = some ⟨.atom [c], level, outer⟩ := by
        simp only [step, stepBetween, isBlank_eq_false_of_isAtomChar hall.1, hall.1, if_true]
        rfl
      rw [readLayout, hchars, run_cons, hstep, Option.bind_some, run_atom hall.2]
    · have htext : String.ofList (cs.reverse ++ [c]).reverse = t := by
        rw [List.reverse_append, List.reverse_reverse]
        change String.ofList (c :: cs) = t
        rw [← hchars, String.ofList_toList]
      simp only [State.settle, htext]
      rfl

theorem add_quoteMark (s : State) (form : Sexp) : s.quoteMark.add form = s.add (.quoted form) := by
  obtain ⟨mode, ⟨forms, quotes⟩, outer⟩ := s
  have hquotes : ∀ n, quoteTimes (n + 1) form = quoteTimes n (.quoted form) := by
    intro n
    induction n with
    | zero => rfl
    | succ n ih => exact congrArg Sexp.quoted ih
  simp only [State.quoteMark, State.add, Level.add, hquotes]

theorem yields_quoted_atom {t : String} (ht : Atomic t) :
    Yields (.text ("'" ++ t)) [.quoted (.atom t)] := by
  rintro ⟨mode, level, outer⟩ hs
  obtain rfl : mode = .between := hs
  -- Behind the quote mark the atom is read as ever, and `add` applies the marks that wait.
  obtain ⟨s', hread, hs'⟩ := yields_atom ht (State.quoteMark ⟨.between, level, outer⟩) rfl
  refine ⟨s', ?_, ?_⟩
  · rw [readLayout_text_append, ← hread]
    rfl
  · rw [hs', State.addAll_cons, State.addAll_nil, add_quoteMark]
    rfl

/-! ### Strings -/

/-- If every character is escaped so that it reads as some character, so is the whole text. -/
theorem run_string {escape : Char → List Char} {image : Char → Char} {cs : List Char}
    (h : ∀ c ∈ cs, ∀ soFar level outer, run (escape c) ⟨.string soFar, level, outer⟩ =
      some ⟨.string (image c :: soFar), level, outer⟩)
    (soFar : List Char) (level : Level) (outer : List Level) :
    run (cs.flatMap escape) ⟨.string soFar, level, outer⟩ =
      some ⟨.string ((cs.map image).reverse ++ soFar), level, outer⟩ := by
  induction cs generalizing soFar with
  | nil => rfl
  | cons c cs ih =>
    rw [List.flatMap_cons, run_append, h c List.mem_cons_self, Option.bind_some,
      ih fun x hx => h x (List.mem_cons_of_mem _ hx)]
    simp

theorem yields_string {t : String} (escape : Char → List Char) (image : Char → Char)
    (cs : List Char) (ht : t.toList = '"' :: (cs.flatMap escape ++ ['"']))
    (h : ∀ c ∈ cs, ∀ soFar level outer, run (escape c) ⟨.string soFar, level, outer⟩ =
      some ⟨.string (image c :: soFar), level, outer⟩) :
    Yields (.text t) [.string (String.ofList (cs.map image))] := by
  rintro ⟨mode, level, outer⟩ hs
  obtain rfl : mode = .between := hs
  refine ⟨State.add ⟨.between, level, outer⟩ (.string (String.ofList (cs.map image))), ?_, rfl⟩
  have hopen : step ⟨.between, level, outer⟩ '"' = some ⟨.string [], level, outer⟩ := rfl
  rw [readLayout, ht, run_cons, hopen, Option.bind_some, run_append, run_string h,
    Option.bind_some, run_cons]
  simp [step]

theorem run_plain_char {c : Char} (hquote : c ≠ '"') (hslash : c ≠ '\\') (soFar : List Char)
    (level : Level) (outer : List Level) :
    run [c] ⟨.string soFar, level, outer⟩ = some ⟨.string (c :: soFar), level, outer⟩ := by
  simp [run_cons, step, hquote, hslash]

theorem yields_symbol {name : String} (hname : name.toList.all isAtomChar) :
    Yields (.text (symbol name)) [.string name] := by
  have hchars : (symbol name).toList = '"' :: (name.toList.flatMap (fun c => [c]) ++ ['"']) := by
    simp [symbol]
  have hyields := yields_string _ id name.toList hchars fun c hc soFar level outer => by
    have hatom : isAtomChar c := List.all_eq_true.1 hname c hc
    refine run_plain_char ?_ ?_ soFar level outer
    · rintro rfl
      exact absurd hatom (by decide)
    · rintro rfl
      exact absurd hatom (by decide)
  simpa using hyields

theorem yields_quote (s : String) : Yields (.text (quote s)) [.string s] := by
  have hchars : (quote s).toList = '"' :: (s.toList.flatMap
      (fun c => if c = '"' ∨ c = '\\' then ['\\', c] else [c]) ++ ['"']) := by
    simp [quote]
  have hyields := yields_string _ id s.toList hchars fun c _ soFar level outer => by
    by_cases hc : c = '"' ∨ c = '\\'
    · simp only [if_pos hc]
      rfl
    · simp only [if_neg hc]
      obtain ⟨hquote, hslash⟩ := not_or.1 hc
      exact run_plain_char hquote hslash soFar level outer
  simpa using hyields

/-- What documentation is read as: the text with single quotes in place of double ones. -/
def docText (doc : String) : String :=
  String.ofList (doc.toList.map fun c => if c = '"' then '\'' else c)

theorem yields_docLiteral (doc : String) : Yields (.text (docLiteral doc)) [.string (docText doc)] :=
  yields_string docChar _ doc.toList (by simp [docLiteral, docstring]) fun c _ soFar level outer => by
    by_cases hslash : c = '\\'
    · subst c
      rfl
    · by_cases hquote : c = '"'
      · subst c
        rfl
      · simp only [docChar, if_neg hslash, if_neg hquote]
        exact run_plain_char hquote hslash soFar level outer

/-! ### Numbers -/

theorem isAtomChar_of_isDigit {c : Char} (hc : c.isDigit) : isAtomChar c := by
  simp [isAtomChar, isNameChar, Char.isAlphanum, hc]

theorem all_toDigits (n : Nat) : (Nat.toDigits 10 n).all isAtomChar :=
  List.all_eq_true.2 fun _ hc =>
    isAtomChar_of_isDigit (Nat.isDigit_of_mem_toDigits (by decide) (by decide) hc)

theorem all_decimal (n : Int) : (decimal n).all isAtomChar := by
  unfold decimal
  split
  · rw [List.all_append, all_toDigits]
    decide
  · exact all_toDigits n.natAbs

theorem atomic_integerText (n : Int) : Atomic (integerText n) := by
  refine ⟨fun hempty => ?_, by rw [integerText, String.toList_ofList]; exact all_decimal n⟩
  have hchars : decimal n = [] := by
    simpa [integerText] using congrArg String.toList hempty
  exact Nat.toDigits_ne_nil (List.append_eq_nil_iff.1 hchars).2

theorem all_digits (tie : Tie) (magnitude : Nat) :
    (Shortest.digits tie magnitude).digits.all isAtomChar := by
  unfold Shortest.digits
  rw [List.all_reverse, List.all_eq_true]
  intro c hc
  have hmem := (List.dropWhile_sublist _).subset hc
  exact List.all_eq_true.1 (all_toDigits _) c (List.mem_reverse.1 hmem)

theorem all_replicate_zero (n : Nat) : (List.replicate n '0').all isAtomChar := by
  rw [List.all_eq_true]
  intro c hc
  rw [List.eq_of_mem_replicate hc]
  decide

theorem all_of_subset {cs ds : List Char} (hds : ds.all isAtomChar) (h : cs ⊆ ds) :
    cs.all isAtomChar :=
  List.all_eq_true.2 fun c hc => List.all_eq_true.1 hds c (h hc)

theorem all_positional {d : Digits} (hd : d.digits.all isAtomChar) :
    (DoubleStyle.positional d).all isAtomChar := by
  unfold DoubleStyle.positional
  split
  · rw [List.all_append, List.all_append, all_replicate_zero, hd]
    decide
  · split
    · rw [List.all_append, List.all_append, all_of_subset hd (List.take_subset _ _),
        all_of_subset hd (List.drop_subset _ _)]
      decide
    · rw [List.all_append, List.all_append, all_replicate_zero, hd]
      decide

theorem all_scientific {style : DoubleStyle} (hmark : isAtomChar style.mark)
    (hplus : style.plusSign = false) {d : Digits} (hd : d.digits.all isAtomChar) :
    (style.scientific d).all isAtomChar := by
  unfold DoubleStyle.scientific
  simp only [List.all_append, hplus, all_decimal, List.all_cons, hmark, Bool.false_eq_true,
    false_and, if_false, List.all_nil]
  split
  · rename_i first second rest hdigits
    rw [hdigits] at hd
    simp only [List.all_cons, Bool.and_eq_true] at hd
    simp only [List.all_cons, hd.1, hd.2.1, hd.2.2]
    decide
  · rw [hd]
    decide

theorem all_doubleStyle_write (x : Binary64) : (doubleStyle.write x).all isAtomChar := by
  have hmagnitude : (doubleStyle.writeMagnitude x.magnitude).all isAtomChar := by
    unfold DoubleStyle.writeMagnitude
    split
    · decide
    · dsimp only
      split
      · rw [List.all_append, all_positional (all_digits _ _)]
        decide
      · exact all_scientific (by decide) rfl (all_digits _ _)
  unfold DoubleStyle.write
  rw [List.all_append, hmagnitude]
  split <;> decide

theorem positional_ne_nil (d : Digits) : DoubleStyle.positional d ≠ [] := by
  unfold DoubleStyle.positional
  split
  · simp
  · split <;> simp

theorem scientific_ne_nil (style : DoubleStyle) (d : Digits) : style.scientific d ≠ [] := by
  simp [DoubleStyle.scientific]

theorem doubleStyle_write_ne_nil (x : Binary64) : doubleStyle.write x ≠ [] := by
  have hmagnitude : doubleStyle.writeMagnitude x.magnitude ≠ [] := by
    unfold DoubleStyle.writeMagnitude
    split
    · simp
    · dsimp only
      split
      · simp [positional_ne_nil]
      · exact scientific_ne_nil _ _
  exact fun hnil => hmagnitude (List.append_eq_nil_iff.1 hnil).2

theorem atomic_double (x : Binary64) : Atomic (String.ofList (doubleStyle.write x)) := by
  refine ⟨fun hempty => doubleStyle_write_ne_nil x ?_, ?_⟩
  · simpa using congrArg String.toList hempty
  · rw [String.toList_ofList]
    exact all_doubleStyle_write x

end IdlGen.Lisp.Reader
