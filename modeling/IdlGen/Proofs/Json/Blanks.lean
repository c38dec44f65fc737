import IdlGen.Json.Document
import IdlGen.Proofs.Json.Shortening

/-!
# Blanks of a written document

A character of a JSON text stands between the literals or in one, and in a literal perhaps behind a
backslash, where a quote does not end it. The indented text of a document is its compact text with blanks
put in, none of them into a literal: without the blanks between the literals it is the compact text.
-/

namespace IdlGen.Json

/-- Where the next character of a text stands. -/
inductive Zone where
  | between
  | literal
  /-- In a literal, behind a backslash. -/
  | escape
  deriving DecidableEq

def Zone.next : Zone → Char → Zone
  | between, c => if c = '"' then literal else between
  | literal, c => if c = '"' then between else if c = '\\' then escape else literal
  | escape, _ => literal

def Zone.behind (z : Zone) (text : List Char) : Zone := text.foldl next z

/-- A text without the blanks that do not stand in a literal. -/
def unspaced : Zone → List Char → List Char
  | _, [] => []
  | z, c :: cs => if z = .between ∧ Token.isBlank c then unspaced z cs else c :: unspaced (z.next c) cs

/-- What stands in the literals of a text. -/
def quoted : Zone → List Char → List Char
  | _, [] => []
  | z, c :: cs => if z = .between then quoted (z.next c) cs else c :: quoted (z.next c) cs

theorem next_of_isBlank {c : Char} (hc : Token.isBlank c) : Zone.between.next c = .between := by
  have hquote : c ≠ '"' := by
    rintro rfl
    cases hc
  exact if_neg hquote

theorem unspaced_append (z : Zone) (s t : List Char) :
    unspaced z (s ++ t) = unspaced z s ++ unspaced (z.behind s) t := by
  induction s generalizing z with
  | nil => rfl
  | cons c s ih =>
    by_cases hblank : z = .between ∧ Token.isBlank c
    · obtain ⟨rfl, hc⟩ := hblank
      have hbehind : Zone.between.behind (c :: s) = Zone.between.behind s := by
        rw [Zone.behind, List.foldl_cons, next_of_isBlank hc]
        rfl
      simp only [List.cons_append, unspaced, hc, and_self, if_true, ih, hbehind]
    · simp only [List.cons_append, unspaced, if_neg hblank, ih]
      rfl

theorem quoted_append (z : Zone) (s t : List Char) :
    quoted z (s ++ t) = quoted z s ++ quoted (z.behind s) t := by
  induction s generalizing z with
  | nil => rfl
  | cons c s ih =>
    by_cases hz : z = .between
    · simp only [List.cons_append, quoted, if_pos hz, ih]
      rfl
    · simp only [List.cons_append, quoted, if_neg hz, ih]
      rfl

/-! ### Pieces of text -/

def IsBreak (c : Char) : Prop := c = '\n' ∨ c = '\t' ∨ c = '\r'

instance : DecidablePred IsBreak := fun c =>
  inferInstanceAs (Decidable (c = '\n' ∨ c = '\t' ∨ c = '\r'))

/-- From the first zone to the last one, the text is the other one but for blanks between literals, and it
breaks no literal. -/
structure Condenses (z : Zone) (text condensed : List Char) (z' : Zone) : Prop where
  behind : z.behind text = z'
  unspaced : unspaced z text = condensed
  unbroken : ∀ c ∈ quoted z text, ¬IsBreak c

/-- The same of a text that begins and ends between literals. -/
abbrev Tightens (text condensed : List Char) : Prop := Condenses .between text condensed .between

namespace Condenses

variable {z z' z'' : Zone} {text condensed text' condensed' : List Char} {c : Char}

theorem nil (z : Zone) : Condenses z [] [] z := ⟨rfl, rfl, fun _ hc => absurd hc List.not_mem_nil⟩

theorem append (h : Condenses z text condensed z') (h' : Condenses z' text' condensed' z'') :
    Condenses z (text ++ text') (condensed ++ condensed') z'' := by
  refine ⟨?_, ?_, ?_⟩
  · rw [Zone.behind, List.foldl_append]
    change Zone.behind (z.behind text) text' = _
    rw [h.behind, h'.behind]
  · rw [unspaced_append, h.behind, h.unspaced, h'.unspaced]
  · rw [quoted_append, h.behind]
    exact List.forall_mem_append.2 ⟨h.unbroken, h'.unbroken⟩

theorem flatMap {f g : Char → List Char} (h : ∀ c ∈ text, Condenses z (f c) (g c) z) :
    Condenses z (text.flatMap f) (text.flatMap g) z := by
  induction text with
  | nil => exact nil z
  | cons c text ih =>
    obtain ⟨hc, htext⟩ := List.forall_mem_cons.1 h
    rw [List.flatMap_cons, List.flatMap_cons]
    exact hc.append (ih htext)

theorem blank (hc : Token.isBlank c) : Tightens [c] [] := by
  refine ⟨next_of_isBlank hc, ?_, fun _ hmem => absurd hmem List.not_mem_nil⟩
  simp [Json.unspaced, hc]

theorem between (hc : Token.isBlank c = false) : Condenses .between [c] [c] (Zone.between.next c) := by
  refine ⟨rfl, ?_, fun _ hmem => absurd hmem List.not_mem_nil⟩
  simp [Json.unspaced, hc]

theorem inside (hz : z ≠ .between) (hc : ¬IsBreak c) : Condenses z [c] [c] (z.next c) := by
  refine ⟨rfl, ?_, ?_⟩
  · simp [Json.unspaced, hz]
  · simpa [quoted, hz] using hc

theorem blanks (h : ∀ c ∈ text, Token.isBlank c) : Tightens text [] := by
  have hblanks := flatMap fun c hc => blank (h c hc)
  rwa [List.flatMap_singleton', List.flatMap_eq_nil_iff.2 fun _ _ => rfl] at hblanks

end Condenses

/-! ### Literals -/

/-- A character that may stand in a literal as it is. -/
def IsPlain (c : Char) : Prop := c ≠ '"' ∧ c ≠ '\\' ∧ ¬IsBreak c

instance : DecidablePred IsPlain := fun c =>
  inferInstanceAs (Decidable (c ≠ '"' ∧ c ≠ '\\' ∧ ¬IsBreak c))

theorem condenses_plain {c : Char} (h : IsPlain c) : Condenses .literal [c] [c] .literal := by
  obtain ⟨hquote, hslash, hbreak⟩ := h
  have hnext : Zone.literal.next c = .literal := by rw [Zone.next, if_neg hquote, if_neg hslash]
  have hinside := Condenses.inside (z := .literal) (by decide) hbreak
  rwa [hnext] at hinside

/-- What a character is written as breaks no literal and does not end it. -/
theorem condenses_escape (c : Char) :
    Condenses .literal (Quoted.escape c) (Quoted.escape c) .literal := by
  have hslash : Condenses .literal ['\\'] ['\\'] .escape := .inside (by decide) (by decide)
  rcases Quoted.escape_cases c with
    ⟨letter, hwritten, hletter, -⟩ | ⟨hcontrol, hwritten⟩ | ⟨hquote, hbackslash, hcontrol, hwritten⟩
  · have hbreak : ¬IsBreak letter := by
      rintro (rfl | rfl | rfl) <;> cases hletter
    rw [hwritten]
    exact hslash.append (.inside (z := .escape) (by decide) hbreak)
  · have hdigits : ∀ n < 0x20, IsPlain (Quoted.hexDigit (n / 16)) ∧ IsPlain (Quoted.hexDigit n) := by
      decide
    obtain ⟨hhigh, hlow⟩ := hdigits c.toNat hcontrol
    have hunit : Condenses .escape ['u'] ['u'] .literal := .inside (by decide) (by decide)
    have hzero : Condenses .literal ['0'] ['0'] .literal := condenses_plain (by decide)
    rw [hwritten]
    exact hslash.append (hunit.append (hzero.append (hzero.append
      ((condenses_plain hhigh).append (condenses_plain hlow)))))
  · have hbreak : ¬IsBreak c := by
      rintro (rfl | rfl | rfl) <;> exact hcontrol (by decide)
    rw [hwritten]
    exact condenses_plain ⟨hquote, hbackslash, hbreak⟩

theorem tightens_write (text : List Char) : Tightens (Quoted.write text) (Quoted.write text) := by
  have hopening : Condenses .between ['"'] ['"'] .literal := .between rfl
  have hclosing : Condenses .literal ['"'] ['"'] .between := .inside (by decide) (by decide)
  exact hopening.append ((Condenses.flatMap fun c _ => condenses_escape c).append hclosing)

/-! ### Numbers and words -/

/-- Neither blanks nor quotes. -/
def Bare (text : List Char) : Prop := ∀ c ∈ text, c ≠ '"' ∧ Token.isBlank c = false

namespace Bare

variable {text more : List Char}

instance decidable (text : List Char) : Decidable (Bare text) := List.decidableBAll _ text

theorem append (h : Bare text) (h' : Bare more) : Bare (text ++ more) :=
  List.forall_mem_append.2 ⟨h, h'⟩

theorem of_digits (h : ∀ c ∈ text, c.isDigit) : Bare text := by
  intro c hc
  obtain ⟨hblank, -, hquote⟩ := Token.number_start (.inr (h c hc))
  exact ⟨hquote, hblank⟩

theorem tightens (h : Bare text) : Tightens text text := by
  have hchar : ∀ c ∈ text, Tightens [c] [c] := by
    intro c hc
    have hnext : Zone.between.next c = .between := if_neg (h c hc).1
    have hbetween := Condenses.between (h c hc).2
    rwa [hnext] at hbetween
  have hbare := Condenses.flatMap (f := fun c => [c]) (g := fun c => [c]) hchar
  rwa [List.flatMap_singleton'] at hbare

end Bare

theorem bare_decimal (n : Int) : Bare (decimal n) := by
  have hsign : Bare (if n < 0 then ['-'] else []) := by split <;> decide
  exact hsign.append (.of_digits fun c hc => Nat.isDigit_of_mem_toDigits (by decide) (by decide) hc)

theorem bare_positional {d : Digits} (hdigits : ∀ c ∈ d.digits, c.isDigit) :
    Bare (DoubleStyle.positional d) := by
  have hzeros : ∀ n, Bare (List.replicate n '0') :=
    fun n => .of_digits fun c hc => by rw [List.eq_of_mem_replicate hc]; rfl
  unfold DoubleStyle.positional
  split
  · exact (Bare.append (by decide) (hzeros _)).append (.of_digits hdigits)
  · split
    · have hwhole : Bare (d.digits.take d.point.toNat) :=
        .of_digits fun c hc => hdigits c (List.mem_of_mem_take hc)
      have hfraction : Bare (d.digits.drop d.point.toNat) :=
        .of_digits fun c hc => hdigits c (List.mem_of_mem_drop hc)
      exact (hwhole.append (by decide)).append hfraction
    · exact ((Bare.of_digits hdigits).append (hzeros _)).append (by decide)

theorem bare_scientific {d : Digits} (hdigits : ∀ c ∈ d.digits, c.isDigit) :
    Bare (Value.doubleStyle.scientific d) := by
  have hplus : ∀ p : Prop, [Decidable p] → Bare (if p then ['+'] else []) := by
    intro p _
    split <;> decide
  unfold DoubleStyle.scientific
  refine ((Bare.append ?_ (by decide)).append (hplus _)).append (bare_decimal _)
  -- The point stands behind the first digit, if there is another one.
  split
  · rename_i first second rest hd
    rw [hd] at hdigits
    obtain ⟨hfirst, hrest⟩ := List.forall_mem_cons.1 hdigits
    have hone : Bare [first] := .of_digits (List.forall_mem_singleton.2 hfirst)
    have hpoint : Bare ['.'] := by decide
    exact hone.append (hpoint.append (.of_digits hrest))
  · exact .of_digits hdigits

theorem bare_doubleText (x : Binary64) : Bare (Value.doubleText x) := by
  have hsign : Bare (if x.isNegative then ['-'] else []) := by split <;> decide
  have hdigits : ∀ c ∈ (Shortest.digits .even x.magnitude).digits, c.isDigit :=
    fun _ => DoubleStyle.isDigit_of_mem_digits
  unfold Value.doubleText
  split
  · refine hsign.append ?_
    unfold DoubleStyle.writeMagnitude
    split
    · decide
    · dsimp only
      split
      · exact (bare_positional hdigits).append (by decide)
      · exact bare_scientific hdigits
  · decide

namespace Value

theorem tightens_leafText (v : Value) : Tightens v.leafText v.leafText := by
  unfold leafText
  split
  · exact Bare.tightens (by decide)
  · exact Bare.tightens (by decide)
  · exact (bare_decimal _).tightens
  · exact (bare_doubleText _).tightens
  · exact tightens_write _
  · exact Bare.tightens (by decide)

/-! ### Arrays and objects -/

theorem tightens_commas {texts condensed : List (List Char)}
    (h : List.Forall₂ Tightens texts condensed) : Tightens (commas texts) (commas condensed) := by
  have hcomma : Tightens [','] [','] := .between rfl
  induction h with
  | nil => exact .nil _
  | cons htext hrest ih =>
    cases hrest with
    | nil => exact htext
    | cons hnext hmore => exact htext.append (hcomma.append ih)

theorem tightens_bracketed {first last : Char} {text condensed : List Char} (hbare : Bare [first, last])
    (h : Tightens text condensed) : Tightens (first :: text ++ [last]) (first :: condensed ++ [last]) := by
  obtain ⟨hfirst, hlast⟩ := List.forall_mem_cons.1 hbare
  have hopening : Bare [first] := List.forall_mem_singleton.2 hfirst
  have hclosing : Bare [last] := hlast
  exact hopening.tightens.append (h.append hclosing.tightens)

theorem tightens_block {first last : Char} (hbare : Bare [first, last]) {entries condensed : List (List Char)}
    (h : List.Forall₂ Tightens entries condensed) (depth : Nat) :
    Tightens (block first last depth entries) (first :: commas condensed ++ [last]) := by
  have hline : ∀ depth, Tightens (newline depth) [] := fun depth => .blanks (isBlank_newline depth)
  unfold block
  cases h with
  | nil => exact tightens_bracketed hbare (.nil _)
  | @cons text text' texts texts' htext hrest =>
    have hentries :
        List.Forall₂ Tightens ((text :: texts).map (newline (depth + 1) ++ ·)) (text' :: texts') := by
      rw [List.forall₂_map_left_iff]
      exact (List.Forall₂.cons htext hrest).imp fun _ _ hentry => (hline _).append hentry
    have hinner := (tightens_commas hentries).append (hline depth)
    rw [List.append_nil] at hinner
    exact tightens_bracketed hbare hinner

theorem tightens_items {items : List Value} {depth : Nat}
    (h : ∀ v ∈ items, Tightens (v.indented depth) v.compact) :
    List.Forall₂ Tightens (indentedItems depth items) (compactItems items) := by
  induction items with
  | nil => exact .nil
  | cons v items ih =>
    obtain ⟨hv, hitems⟩ := List.forall_mem_cons.1 h
    exact .cons hv (ih hitems)

theorem tightens_members {members : List (String × Option Value)} {depth : Nat}
    (h : ∀ m ∈ members, ∀ v, m.2 = some v → Tightens (v.indented depth) v.compact) :
    List.Forall₂ Tightens (indentedMembers depth members) (compactMembers members) := by
  have hbare : Bare [':'] := by decide
  have hcolon : Tightens [':', ' '] [':'] := hbare.tightens.append (Condenses.blank rfl)
  induction members with
  | nil => exact .nil
  | cons m members ih =>
    obtain ⟨hm, hmembers⟩ := List.forall_mem_cons.1 h
    obtain ⟨key, held⟩ := m
    cases held with
    | none => exact ih hmembers
    | some v =>
      have hmember := (tightens_write key.toList).append (hcolon.append (hm v rfl))
      exact .cons hmember (ih hmembers)

theorem tightens_indented (v : Value) (depth : Nat) : Tightens (v.indented depth) v.compact := by
  induction v generalizing depth with
  | null => exact tightens_leafText null
  | flag b => exact tightens_leafText (flag b)
  | integer n => exact tightens_leafText (integer n)
  | double x => exact tightens_leafText (double x)
  | string s => exact tightens_leafText (string s)
  | array items ih => exact tightens_block (by decide) (tightens_items fun v hv => ih v hv _) depth
  | object members ih =>
    exact tightens_block (by decide) (tightens_members fun m hm v hv => ih m hm v hv _) depth

end Value

/-- Both texts of a document are the same but for blanks between literals: without these, the indented text
is the compact one. And no literal goes over a line break or a tab. -/
theorem unspaced_toIndentedText {α : Type} [Document α] (x : α) :
    unspaced .between (Document.toIndentedText x).toList = (Document.toText x).toList ∧
      ∀ c ∈ quoted .between (Document.toIndentedText x).toList, c ≠ '\n' ∧ c ≠ '\t' ∧ c ≠ '\r' := by
  have htightens := (Document.toValue x).tightens_indented 0
  rw [Document.toIndentedText, Value.toIndentedText, Document.toText, Value.toText, String.toList_ofList,
    String.toList_ofList]
  refine ⟨htightens.unspaced, fun c hc => ?_⟩
  obtain ⟨hline, hmore⟩ := not_or.1 (htightens.unbroken c hc)
  exact ⟨hline, not_or.1 hmore⟩

/-- A blank behind an escaped quote stands in the literal still. -/
example : unspaced .between "[\n  \"a \\\" b\",\n  7\n]".toList = "[\"a \\\" b\",7]".toList := by
  decide

end IdlGen.Json
