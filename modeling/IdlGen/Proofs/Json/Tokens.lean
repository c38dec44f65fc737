import IdlGen.Json.Token
import IdlGen.Json.Value
import IdlGen.Proofs.Json.Numerals
import IdlGen.Proofs.Json.Strings
import Mathlib.Data.List.Forall2

/-!
# The tokens of a written value

Compact and indented text differ in their blanks only, and blanks have no token. So both are cut into
the same tokens, which are determined by the value alone.
-/

namespace IdlGen.Json

/-! ### Values -/

namespace Value

@[elab_as_elim, induction_eliminator]
theorem induction {P : Value → Prop} (null : P .null) (flag : ∀ b, P (.flag b))
    (integer : ∀ n, P (.integer n)) (double : ∀ x, P (.double x)) (string : ∀ s, P (.string s))
    (array : ∀ items, (∀ v ∈ items, P v) → P (.array items))
    (object : ∀ members, (∀ m ∈ members, ∀ v, m.2 = some v → P v) → P (.object members))
    (v : Value) : P v := by
  refine Value.rec (motive_1 := P) (motive_2 := fun items => ∀ v ∈ items, P v)
    (motive_3 := fun members => ∀ m ∈ members, ∀ v, m.2 = some v → P v)
    (motive_4 := fun m => ∀ v, m.2 = some v → P v) (motive_5 := fun held => ∀ v, held = some v → P v)
    null flag integer double string array object ?_ ?_ ?_ ?_ ?_ ?_ ?_ v
  · exact fun item h => absurd h List.not_mem_nil
  · exact fun item items hitem hitems => List.forall_mem_cons.2 ⟨hitem, hitems⟩
  · exact fun member h => absurd h List.not_mem_nil
  · exact fun member members hmember hmembers => List.forall_mem_cons.2 ⟨hmember, hmembers⟩
  · exact fun key held hheld => hheld
  · exact fun v h => nomatch h
  · exact fun v hv w h => Option.some.inj h ▸ hv

/-- The literal of a finite double. -/
def numeral (x : Binary64) : Numeral :=
  match Numeral.read (doubleStyle.write x) with
  | .done n _ => n
  | .broken _ _ => ⟨false, [], [], none⟩

/-- A double that is read back from the number that is written for it. -/
def ReadsBack (x : Binary64) : Prop :=
  x.isFinite ∧ ∃ n, Numeral.read (doubleStyle.write x) = .done n [] ∧ n.toBinary64? = some x

mutual

/-- The doubles in a value. -/
def doubles : Value → List Binary64
  | double x => [x]
  | array items => itemDoubles items
  | object members => memberDoubles members
  | _ => []

def itemDoubles : List Value → List Binary64
  | [] => []
  | v :: more => doubles v ++ itemDoubles more

def memberDoubles : List (String × Option Value) → List Binary64
  | [] => []
  | (_, none) :: more => memberDoubles more
  | (_, some v) :: more => doubles v ++ memberDoubles more

end

/-- All doubles in a value are read back. -/
def Sound (v : Value) : Prop := ∀ x ∈ v.doubles, ReadsBack x

theorem mem_itemDoubles {x : Binary64} {items : List Value} {v : Value} (hv : v ∈ items)
    (hx : x ∈ v.doubles) : x ∈ itemDoubles items := by
  induction items with
  | nil => exact absurd hv List.not_mem_nil
  | cons item items ih =>
    rw [itemDoubles, List.mem_append]
    rcases List.mem_cons.1 hv with rfl | hmore
    · exact .inl hx
    · exact .inr (ih hmore)

theorem mem_memberDoubles {x : Binary64} {members : List (String × Option Value)} {key : String}
    {v : Value} (hv : (key, some v) ∈ members) (hx : x ∈ v.doubles) :
    x ∈ memberDoubles members := by
  induction members with
  | nil => exact absurd hv List.not_mem_nil
  | cons member members ih =>
    rcases List.mem_cons.1 hv with rfl | hmore
    · rw [memberDoubles, List.mem_append]
      exact .inl hx
    · obtain ⟨key, held⟩ := member
      cases held with
      | none => exact ih hmore
      | some w =>
        rw [memberDoubles, List.mem_append]
        exact .inr (ih hmore)

theorem Sound.item {items : List Value} (h : (array items).Sound) : ∀ v ∈ items, v.Sound :=
  fun _ hv x hx => h x (mem_itemDoubles hv hx)

theorem Sound.member {members : List (String × Option Value)} (h : (object members).Sound) :
    ∀ m ∈ members, ∀ v, m.2 = some v → v.Sound := by
  rintro ⟨key, held⟩ hm v rfl x hx
  exact h x (mem_memberDoubles hm hx)

theorem Sound.double {x : Binary64} (h : (double x).Sound) : ReadsBack x :=
  h x List.mem_cons_self

theorem read_double {x : Binary64} (h : ReadsBack x) :
    Numeral.read (doubleStyle.write x) = .done (numeral x) [] ∧
      (numeral x).toBinary64? = some x := by
  obtain ⟨-, n, hread, hback⟩ := h
  have hnumeral : numeral x = n := by rw [numeral, hread]
  rw [hnumeral]
  exact ⟨hread, hback⟩

/-! ### Tokens -/

/-- Token sequences with commas between them. -/
def separate : List (List Token) → List Token
  | [] => []
  | [ts] => ts
  | ts :: more => ts ++ .mark .comma :: separate more

mutual

/-- The tokens of a written value. -/
def tokens : Value → List Token
  | null => [.word .null]
  | flag b => [.word (if b then .yes else .no)]
  | integer n => [.number (.ofInt n)]
  | double x => [.number (numeral x)]
  | string s => [.string (some s.toList)]
  | array items => .mark .openBracket :: (separate (itemTokens items) ++ [.mark .closeBracket])
  | object members => .mark .openBrace :: (separate (memberTokens members) ++ [.mark .closeBrace])

def itemTokens : List Value → List (List Token)
  | [] => []
  | v :: more => tokens v :: itemTokens more

def memberTokens : List (String × Option Value) → List (List Token)
  | [] => []
  | (_, none) :: more => memberTokens more
  | (key, some v) :: more =>
    (.string (some key.toList) :: .mark .colon :: tokens v) :: memberTokens more

end

end Value

/-! ### Cutting -/

namespace Token

theorem scan_blank {c : Char} (hc : isBlank c) (cs : List Char) : scan (c :: cs) = scan cs := by
  rw [scan, if_pos hc]

theorem scan_mark {c : Char} {m : Mark} (hblank : isBlank c = false) (hm : mark? c = some m)
    (cs : List Char) : scan (c :: cs) = .mark m :: scan cs := by
  rw [scan, hblank, if_neg Bool.false_ne_true, hm]

theorem scan_string {cs rest : List Char} {text : Option (List Char)}
    (h : Quoted.read cs = .done text rest) : scan ('"' :: cs) = .string text :: scan rest := by
  have hblank : isBlank '"' = false := rfl
  have hmark : mark? '"' = none := rfl
  rw [scan, hblank, if_neg Bool.false_ne_true, hmark]
  simp only [if_true]
  split
  · rename_i hread
    rw [h] at hread
    obtain ⟨rfl, rfl⟩ := Quoted.Reading.done.inj hread
    rfl
  · rename_i hread
    rw [h] at hread
    cases hread

theorem digit_or_minus {c : Char} {cs rest : List Char} {n : Numeral}
    (h : Numeral.read (c :: cs) = .done n rest) : c = '-' ∨ c.isDigit := by
  by_cases hminus : c = '-'
  · exact .inl hminus
  · refine .inr ?_
    rw [Numeral.read_cons_of_ne hminus, Numeral.readUnsigned] at h
    by_contra hdigit
    have hnone : (c :: cs).takeWhile Char.isDigit = [] := by
      rw [List.takeWhile_cons, if_neg hdigit]
    simp only [hnone, List.isEmpty_nil, if_true] at h
    exact Numeral.noDigit_ne_done _ _ _ h

theorem number_start {c : Char} (hstart : c = '-' ∨ c.isDigit) :
    isBlank c = false ∧ mark? c = none ∧ c ≠ '"' := by
  have hother : ∀ d : Char, d ≠ '-' → d.isDigit = false → c ≠ d := by
    rintro d hminus hdigit rfl
    rcases hstart with hstart | hstart
    · exact hminus hstart
    · rw [hdigit] at hstart
      exact Bool.false_ne_true hstart
  refine ⟨?_, ?_, hother '"' (by decide) (by decide)⟩
  · simp only [isBlank, Bool.or_eq_false_iff, beq_eq_false_iff_ne]
    refine ⟨⟨⟨?_, ?_⟩, ?_⟩, ?_⟩ <;> exact hother _ (by decide) (by decide)
  · rw [mark?, if_neg (hother _ (by decide) (by decide)), if_neg (hother _ (by decide) (by decide)),
      if_neg (hother _ (by decide) (by decide)), if_neg (hother _ (by decide) (by decide)),
      if_neg (hother _ (by decide) (by decide)), if_neg (hother _ (by decide) (by decide))]

/-- Neither a blank nor a mark continues a number. -/
theorem stops_separator {c : Char} (hc : isBlank c ∨ mark? c ≠ none) (rest : List Char) :
    Numeral.Stops (c :: rest) := by
  have hother : ∀ d : Char, isBlank d = false → mark? d = none → c ≠ d := by
    rintro d hblank hmark rfl
    rcases hc with hc | hc
    · rw [hblank] at hc
      exact Bool.false_ne_true hc
    · exact hc hmark
  have hdigit : c.isDigit = false := by
    cases hdigit : c.isDigit with
    | false => rfl
    | true =>
      obtain ⟨hblank, hmark, -⟩ := number_start (.inr hdigit)
      exact absurd rfl (hother c hblank hmark)
  exact Numeral.stops_cons hdigit (hother _ rfl rfl) (hother _ rfl rfl) (hother _ rfl rfl) rest

theorem scan_number {c : Char} {cs rest : List Char} {n : Numeral}
    (h : Numeral.read (c :: cs) = .done n rest) : scan (c :: cs) = .number n :: scan rest := by
  have hstart := digit_or_minus h
  obtain ⟨hblank, hmark, hquote⟩ := number_start hstart
  rw [scan, hblank, if_neg Bool.false_ne_true, hmark]
  simp only [if_neg hquote, if_pos hstart]
  split
  · rename_i hread
    rw [h] at hread
    obtain ⟨rfl, rfl⟩ := Numeral.Reading.done.inj hread
    rfl
  · rename_i hread
    rw [h] at hread
    cases hread

theorem word_start {c : Char} {start : Start} {w : Word} {letters : List Char}
    (hword : word? c = some (start, w, letters)) :
    isBlank c = false ∧ mark? c = none ∧ c ≠ '"' ∧ ¬(c = '-' ∨ c.isDigit) := by
  have hletter : c = 'n' ∨ c = 't' ∨ c = 'f' := by
    by_contra hnone
    obtain ⟨hn, ht, hf⟩ := not_or.1 hnone |>.imp_right not_or.1
    rw [word?, if_neg hn, if_neg ht, if_neg hf] at hword
    cases hword
  rcases hletter with rfl | rfl | rfl <;> decide

theorem scan_word {c : Char} {start : Start} {w : Word} (letters : List Char)
    (hword : word? c = some (start, w, letters)) (rest : List Char) :
    scan (c :: (letters ++ rest)) = .word w :: scan rest := by
  have hspell : ∀ ls : List Char, spell ls (ls ++ rest) = .ok rest := by
    intro ls
    induction ls with
    | nil => cases rest <;> rfl
    | cons l ls ih => rw [List.cons_append, spell, if_pos rfl, ih]
  obtain ⟨hblank, hmark, hquote, hnumber⟩ := word_start hword
  rw [scan, hblank, if_neg Bool.false_ne_true, hmark]
  simp only [if_neg hquote, if_neg hnumber, hword]
  split
  · rename_i hread
    rw [hspell] at hread
    obtain rfl := Except.ok.inj hread
    rfl
  · rename_i hread
    rw [hspell] at hread
    cases hread

/-- In front of anything that cannot continue a number, the text is cut into these tokens. -/
def Scans (text : List Char) (ts : List Token) : Prop :=
  ∀ rest, Numeral.Stops rest → scan (text ++ rest) = ts ++ scan rest

theorem Scans.nil : Scans [] [] := fun _ _ => rfl

theorem Scans.blanks {blanks text : List Char} {ts : List Token}
    (hblanks : ∀ c ∈ blanks, isBlank c) (h : Scans text ts) : Scans (blanks ++ text) ts := by
  intro rest hrest
  induction blanks with
  | nil => exact h rest hrest
  | cons c blanks ih =>
    obtain ⟨hc, hmore⟩ := List.forall_mem_cons.1 hblanks
    rw [List.cons_append, List.cons_append, scan_blank hc]
    exact ih hmore

theorem Scans.separated {first second : List Char} {c : Char} {m : Mark} {ts us : List Token}
    (hc : isBlank c = false ∧ mark? c = some m) (hfirst : Scans first ts)
    (hsecond : Scans second us) : Scans (first ++ c :: second) (ts ++ .mark m :: us) := by
  intro rest hrest
  have hmark : mark? c ≠ none := by
    rw [hc.2]
    exact Option.some_ne_none m
  have hstops := stops_separator (.inr hmark) (second ++ rest)
  rw [List.append_assoc, List.cons_append, hfirst _ hstops, scan_mark hc.1 hc.2, hsecond _ hrest,
    List.append_assoc]
  rfl

theorem Scans.trailing {blanks text : List Char} {ts : List Token}
    (hblanks : ∀ c ∈ blanks, isBlank c) (h : Scans text ts) : Scans (text ++ blanks) ts := by
  intro rest hrest
  have hstops : Numeral.Stops (blanks ++ rest) := by
    cases blanks with
    | nil => exact hrest
    | cons c blanks => exact stops_separator (.inl (hblanks c List.mem_cons_self)) (blanks ++ rest)
  rw [List.append_assoc, h _ hstops]
  have hskip : scan (blanks ++ [] ++ rest) = scan rest := Scans.blanks hblanks Scans.nil rest hrest
  rw [List.append_nil] at hskip
  rw [hskip]

theorem Scans.bracketed {inner : List Char} {first last : Char} {m n : Mark} {ts : List Token}
    (hfirst : isBlank first = false ∧ mark? first = some m)
    (hlast : isBlank last = false ∧ mark? last = some n) (h : Scans inner ts) :
    Scans (first :: inner ++ [last]) (.mark m :: (ts ++ [.mark n])) :=
  Scans.separated hfirst Scans.nil (Scans.separated hlast h Scans.nil)

theorem Scans.number {text : List Char} {n : Numeral} (h : Numeral.read text = .done n []) :
    Scans text [.number n] := by
  intro rest hrest
  cases text with
  | nil => cases h
  | cons c cs => exact scan_number (Numeral.read_append hrest h)

theorem Scans.string (text : List Char) : Scans (Quoted.write text) [.string (some text)] := by
  intro rest hrest
  rw [Quoted.write, List.cons_append, List.cons_append, List.append_assoc]
  exact scan_string (Quoted.read_escapes text rest)

theorem Scans.commas {texts : List (List Char)} {tss : List (List Token)}
    (h : List.Forall₂ Scans texts tss) : Scans (Value.commas texts) (Value.separate tss) := by
  induction h with
  | nil => exact Scans.nil
  | cons htext hrest ih =>
    cases hrest with
    | nil => exact htext
    | cons hnext hmore => exact Scans.separated ⟨rfl, rfl⟩ htext ih

theorem Scans.member {key : List Char} {text : List Char} {ts : List Token} (h : Scans text ts) :
    Scans (Quoted.write key ++ ':' :: text) (.string (some key) :: .mark .colon :: ts) :=
  Scans.separated ⟨rfl, rfl⟩ (Scans.string key) h

end Token

namespace Value

open Token

/-! ### Written values -/

theorem scans_double {x : Binary64} (h : ReadsBack x) : Scans (doubleText x) [.number (numeral x)] := by
  rw [doubleText, if_pos h.1]
  exact Scans.number (read_double h).1

theorem scans_flag (b : Bool) :
    Scans (leafText (flag b)) [.word (if b then .yes else .no)] := by
  intro rest _
  cases b with
  | false => exact scan_word ['a', 'l', 's', 'e'] rfl rest
  | true => exact scan_word ['r', 'u', 'e'] rfl rest

theorem scans_null : Scans (leafText null) [.word .null] := by
  intro rest _
  exact scan_word ['u', 'l', 'l'] rfl rest

theorem scans_compactItems {items : List Value} (h : ∀ v ∈ items, Scans v.compact v.tokens) :
    List.Forall₂ Scans (compactItems items) (itemTokens items) := by
  induction items with
  | nil => exact .nil
  | cons v items ih =>
    obtain ⟨hv, hitems⟩ := List.forall_mem_cons.1 h
    exact .cons hv (ih hitems)

theorem scans_compactMembers {members : List (String × Option Value)}
    (h : ∀ m ∈ members, ∀ v, m.2 = some v → Scans v.compact v.tokens) :
    List.Forall₂ Scans (compactMembers members) (memberTokens members) := by
  induction members with
  | nil => exact .nil
  | cons m members ih =>
    obtain ⟨hm, hmembers⟩ := List.forall_mem_cons.1 h
    obtain ⟨key, held⟩ := m
    cases held with
    | none => exact ih hmembers
    | some v => exact .cons (Scans.member (hm v rfl)) (ih hmembers)

theorem scans_compact {v : Value} (hv : v.Sound) : Scans v.compact v.tokens := by
  induction v with
  | null => exact scans_null
  | flag b => exact scans_flag b
  | integer n => exact Scans.number (Numeral.read_decimal n)
  | double x => exact scans_double hv.double
  | string s => exact Scans.string s.toList
  | array items ih =>
    have hitems := scans_compactItems fun v hmem => ih v hmem (hv.item v hmem)
    exact Scans.bracketed ⟨rfl, rfl⟩ ⟨rfl, rfl⟩ (Scans.commas hitems)
  | object members ih =>
    have hmembers := scans_compactMembers fun m hm v hheld => ih m hm v hheld (hv.member m hm v hheld)
    exact Scans.bracketed ⟨rfl, rfl⟩ ⟨rfl, rfl⟩ (Scans.commas hmembers)

theorem isBlank_newline (depth : Nat) : ∀ c ∈ newline depth, isBlank c := by
  intro c hc
  rcases List.mem_cons.1 hc with rfl | hblank
  · rfl
  · rw [List.eq_of_mem_replicate hblank]
    rfl

theorem scans_block {first last : Char} {m n : Mark} {entries : List (List Char)}
    {tss : List (List Token)} (hfirst : isBlank first = false ∧ mark? first = some m)
    (hlast : isBlank last = false ∧ mark? last = some n) (h : List.Forall₂ Scans entries tss)
    (depth : Nat) :
    Scans (block first last depth entries) (.mark m :: (separate tss ++ [.mark n])) := by
  unfold block
  cases h with
  | nil => exact Scans.bracketed hfirst hlast Scans.nil
  | @cons text ts texts tss htext hrest =>
    have hentries : List.Forall₂ Scans ((text :: texts).map (newline (depth + 1) ++ ·)) (ts :: tss) := by
      rw [List.forall₂_map_left_iff]
      exact (List.Forall₂.cons htext hrest).imp fun _ _ => Scans.blanks (isBlank_newline (depth + 1))
    have hinner := Scans.trailing (isBlank_newline depth) (Scans.commas hentries)
    exact Scans.bracketed hfirst hlast hinner

theorem scans_indentedItems {items : List Value} {depth : Nat}
    (h : ∀ v ∈ items, Scans (v.indented depth) v.tokens) :
    List.Forall₂ Scans (indentedItems depth items) (itemTokens items) := by
  induction items with
  | nil => exact .nil
  | cons v items ih =>
    obtain ⟨hv, hitems⟩ := List.forall_mem_cons.1 h
    exact .cons hv (ih hitems)

theorem scans_indentedMembers {members : List (String × Option Value)} {depth : Nat}
    (h : ∀ m ∈ members, ∀ v, m.2 = some v → Scans (v.indented depth) v.tokens) :
    List.Forall₂ Scans (indentedMembers depth members) (memberTokens members) := by
  induction members with
  | nil => exact .nil
  | cons m members ih =>
    obtain ⟨hm, hmembers⟩ := List.forall_mem_cons.1 h
    obtain ⟨key, held⟩ := m
    cases held with
    | none => exact ih hmembers
    | some v =>
      have hspace : ∀ c ∈ [' '], isBlank c := List.forall_mem_singleton.2 rfl
      have hblank : Scans ([' '] ++ v.indented depth) v.tokens := Scans.blanks hspace (hm v rfl)
      exact .cons (Scans.member hblank) (ih hmembers)

theorem scans_indented {v : Value} (hv : v.Sound) (depth : Nat) :
    Scans (v.indented depth) v.tokens := by
  induction v generalizing depth with
  | null => exact scans_null
  | flag b => exact scans_flag b
  | integer n => exact Scans.number (Numeral.read_decimal n)
  | double x => exact scans_double hv.double
  | string s => exact Scans.string s.toList
  | array items ih =>
    have hitems := scans_indentedItems fun v hmem => ih v hmem (hv.item v hmem) (depth + 1)
    exact scans_block ⟨rfl, rfl⟩ ⟨rfl, rfl⟩ hitems depth
  | object members ih =>
    have hmembers := scans_indentedMembers fun m hm v hheld =>
      ih m hm v hheld (hv.member m hm v hheld) (depth + 1)
    exact scans_block ⟨rfl, rfl⟩ ⟨rfl, rfl⟩ hmembers depth

/-- Both texts of a value are cut into its tokens. -/
theorem scan_texts {v : Value} (hv : v.Sound) :
    scan v.compact = v.tokens ∧ scan (v.indented 0) = v.tokens := by
  have hcompact := scans_compact hv [] Numeral.stops_nil
  have hindented := scans_indented hv 0 [] Numeral.stops_nil
  rw [List.append_nil, scan, List.append_nil] at hcompact hindented
  exact ⟨hcompact, hindented⟩

end Value

end IdlGen.Json
