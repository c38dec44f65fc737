import IdlGen.Lisp.Backend
import IdlGen.Proofs.Except
import IdlGen.Proofs.Layout.Context

/-!
# Entries under each other

The fields of a record and the labels of an enum are entries between parentheses in one pair of
parentheses. Wherever such a list stands, and whatever its entries print, each of them begins one column
behind the parenthesis that opens the list, and all but the first begin a line: printing an entry
leaves the column that the next line break goes back to as it was, since the list is aligned.
-/

namespace IdlGen.Lisp

open Layout

/-- The layout begins with a parenthesis. -/
def Parenthesized (entry : Layout) : Prop :=
  ∃ s cs, entry.opening? = some s ∧ s.toList = '(' :: cs

/-- A line break and the blanks up to a column. -/
def newLine (column : Nat) : List Char := '\n' :: List.replicate column ' '

/-- What stands in front of an entry of a list: the text in front of the list, its parenthesis, and the
entries before, each with a line break behind it. -/
def aheadOf (front : List Char) (before : List Layout) : List Char :=
  front ++ '(' :: before.flatMap fun entry =>
    entry.printAt (lineLength front + 1) ++ newLine (lineLength front + 1)

/-- In the text the entries of the list behind `front` begin one column behind its parenthesis, with a
parenthesis of their own, and all but the first begin a line. -/
def LinedUp (text front : List Char) (entries : List Layout) : Prop :=
  ∀ before entry after, entries = before ++ entry :: after →
    (∃ more back, entry.printAt (lineLength front + 1) = '(' :: more ∧
      text = aheadOf front before ++ '(' :: more ++ back) ∧
    lineLength (aheadOf front before) = lineLength front + 1 ∧
    (before ≠ [] → ∃ earlier, aheadOf front before = earlier ++ newLine (lineLength front + 1))

/-! ### Aligned entries -/

theorem Parenthesized.print_paid {entry : Layout} (h : Parenthesized entry) (column : Nat)
    {c : Cursor} (hc : c.start = column) :
    (entry.print column c).1 = List.replicate (c.owed.getD 0) ' ' ++ entry.printAt column := by
  obtain ⟨s, cs, hopening, hchars⟩ := h
  have hs : s ≠ "" := by
    rintro rfl
    cases hchars
  rw [Layout.print_paid hopening hs, hc]
  rfl

theorem Parenthesized.printAt {entry : Layout} (h : Parenthesized entry) (column : Nat) :
    ∃ more, entry.printAt column = '(' :: more := by
  obtain ⟨s, cs, hopening, hchars⟩ := h
  have hs : s ≠ "" := by
    rintro rfl
    cases hchars
  obtain ⟨rest, hrest⟩ := print_opening hopening hs column column
  rw [hchars] at hrest
  exact ⟨cs ++ rest, hrest⟩

theorem print_join_cons (entry : Layout) {more : List Layout} (hmore : more ≠ []) (column : Nat)
    (c : Cursor) :
    ((join .line (entry :: more)).print column c).1 =
      (entry.print column c).1 ++ '\n' :: ((join .line more).print column ⟨0, some column⟩).1 := by
  cases more with
  | nil => exact absurd rfl hmore
  | cons next more => exact List.append_assoc _ ['\n'] _

/-- Whatever the entries print, the line break behind each goes back to the column of the first. -/
theorem print_join {before after : List Layout} {entry : Layout}
    (hentries : ∀ other ∈ before ++ entry :: after, Parenthesized other) (column : Nat)
    {c : Cursor} (hc : c.start = column) :
    ∃ back, ((join .line (before ++ entry :: after)).print column c).1 =
      List.replicate (c.owed.getD 0) ' ' ++
        before.flatMap (fun other => other.printAt column ++ newLine column) ++
          entry.printAt column ++ back := by
  induction before generalizing c with
  | nil =>
    have hentry := (hentries entry List.mem_cons_self).print_paid column hc
    rw [List.nil_append, List.flatMap_nil, List.append_nil]
    cases after with
    | nil => exact ⟨[], by rw [List.append_nil]; exact hentry⟩
    | cons next after =>
      rw [print_join_cons entry (List.cons_ne_nil next after), hentry]
      exact ⟨_, rfl⟩
  | cons first before ih =>
    obtain ⟨hfirst, hmore⟩ := List.forall_mem_cons.1 hentries
    obtain ⟨back, hback⟩ := ih hmore (c := ⟨0, some column⟩) rfl
    refine ⟨back, ?_⟩
    rw [List.cons_append, print_join_cons first (by simp), hback, hfirst.print_paid column hc]
    simp [newLine]

/-- The entries of a list are printed from the column behind its parenthesis on. -/
theorem print_aligned (entries : List Layout) (indentation : Nat) (c : Cursor) :
    ∃ back, ((aligned entries).print indentation c).1 = List.replicate (c.owed.getD 0) ' ' ++
      '(' :: ((join .line entries).print (c.start + 1) ⟨c.start + 1, none⟩).1 ++ back := by
  have hopen : printText "(".toList c =
      (List.replicate (c.owed.getD 0) ' ' ++ ['('], ⟨c.start + 1, none⟩) :=
    printText_of_ne_nil (by decide) c
  have hparts : aligned entries = .append (.append "(" (.align (join .line entries))) ")" := rfl
  refine ⟨((Layout.text ")").print indentation
    ((join .line entries).print (c.start + 1) ⟨c.start + 1, none⟩).2).1, ?_⟩
  simp only [hparts, Layout.print, hopen, List.append_assoc, List.cons_append, List.nil_append]
  rfl

theorem lineLength_newLine (out : List Char) (column : Nat) :
    lineLength (out ++ newLine column) = column := by
  rw [lineLength_append]
  change columnAfter 0 (List.replicate column ' ') = column
  rw [columnAfter_replicate, Nat.zero_add]

/-- Behind an entry, what stands in front of the next one ends with a line break and blanks. -/
theorem aheadOf_snoc (front : List Char) (before : List Layout) (entry : Layout) :
    aheadOf front (before ++ [entry]) =
      aheadOf front before ++ entry.printAt (lineLength front + 1) ++
        newLine (lineLength front + 1) := by
  simp [aheadOf]

/-- Wherever it stands, the entries of an aligned list are lined up. -/
theorem linedUp_aligned (context : Context) {entries : List Layout}
    (hentries : ∀ entry ∈ entries, Parenthesized entry) :
    LinedUp (context.fill (aligned entries)).render.toList context.front entries := by
  rintro before entry after rfl
  refine ⟨?_, ?_, ?_⟩
  · obtain ⟨more, hmore⟩ := (hentries entry (by simp)).printAt (lineLength context.front + 1)
    refine ⟨more, ?_⟩
    obtain ⟨behind, hbehind⟩ := context.render_fill (aligned (before ++ entry :: after))
    obtain ⟨close, hclose⟩ := print_aligned (before ++ entry :: after)
      (context.spot {}).indentation (context.spot {}).cursor
    rw [← context.lineLength_front] at hclose
    obtain ⟨rest, hrest⟩ := print_join hentries (lineLength context.front + 1)
      (c := ⟨lineLength context.front + 1, none⟩) rfl
    refine ⟨rest ++ close ++ behind, hmore, ?_⟩
    rw [hbehind, Spot.behind, hclose, hrest, hmore]
    simp [aheadOf, Context.front]
  · rcases List.eq_nil_or_concat before with rfl | ⟨earlier, last, rfl⟩
    · exact lineLength_append _ _
    · rw [List.concat_eq_append, aheadOf_snoc]
      exact lineLength_newLine _ _
  · intro hbefore
    rcases List.eq_nil_or_concat before with rfl | ⟨earlier, last, rfl⟩
    · exact absurd rfl hbefore
    · rw [List.concat_eq_append, aheadOf_snoc]
      exact ⟨_, rfl⟩

/-! ### Field lists and enums -/

theorem parenthesized_text (s : String) : Parenthesized (.text ("(" ++ s)) :=
  ⟨"(" ++ s, s.toList, rfl, String.toList_append⟩

theorem Parenthesized.append {first : Layout} (h : Parenthesized first) (second : Layout) :
    Parenthesized (first ++ second) := h

theorem parenthesized_fieldEntry {current : ProgramInfo} {f : Field} {entry : Layout}
    (h : fieldEntry current f = .ok entry) : Parenthesized entry := by
  obtain ⟨value, -, h⟩ := bind_eq_ok.1 h
  obtain rfl := pure_eq_ok.1 h
  have hname := parenthesized_text (symbol f.name ++ " ")
  rw [← String.append_assoc] at hname
  exact (((hname.append _).append _).append _).append _

theorem parenthesized_labelPair (label : String × Int64) : Parenthesized (labelPair label) := by
  have hlabel := parenthesized_text
    (symbol label.1 ++ " . " ++ integerText label.2.toInt ++ ")")
  rw [← String.append_assoc, ← String.append_assoc, ← String.append_assoc] at hlabel
  exact hlabel

/-- The place of the labels in the form of an enum. -/
def enumPlace (d : EnumDef) : Context :=
  .inFirst (.inSecond (.text ("(thrift:def-enum " ++ symbol d.name))
    (.nest 2 (.inSecond .line .hole))) (.text ")")

/-- In every layout, wherever they stand in it, the entries of a field list and those of an enum are lined
up, with whatever their names, defaults and documentation print. -/
theorem entries_line_up (context : Context) :
    (∀ (current : ProgramInfo) (fields : List Field) (l : Layout),
      fieldList current fields = .ok l → ∃ entries, fields.mapM (fieldEntry current) = .ok entries ∧
        LinedUp (context.fill l).render.toList context.front entries) ∧
    ∀ d : EnumDef, LinedUp (context.fill (enumForm d)).render.toList
      (context.comp (enumPlace d)).front (d.numbering.map labelPair) := by
  constructor
  · intro current fields l h
    obtain ⟨entries, hentries, rfl⟩ := map_eq_ok.1 h
    refine ⟨entries, hentries, linedUp_aligned context ?_⟩
    intro entry hentry
    obtain ⟨f, -, hf⟩ := mem_of_forall₂ (mapM_eq_ok.1 hentries) hentry
    exact parenthesized_fieldEntry hf
  · intro d
    have hform : context.fill (enumForm d) =
        (context.comp (enumPlace d)).fill (aligned (d.numbering.map labelPair)) :=
      (context.fill_comp (enumPlace d) _).symm
    rw [hform]
    apply linedUp_aligned
    intro entry hentry
    obtain ⟨label, -, rfl⟩ := List.mem_map.1 hentry
    exact parenthesized_labelPair label

/-- Behind a text that breaks the line, a field with a default on two lines and documentation that breaks
the line, and a second one below it. -/
theorem entries_line_up_pair :
    let context : Context := .nest 7 (.inSecond (.text "\"a\nb\" ") .hole)
    let current : ProgramInfo := { name := "main" }
    let fields : List Field :=
      [{ id := 1, name := "xs", type := .list (.base .i32), default := some (.list [.integer 5]),
         doc := some "u\nv" },
       { id := 2, name := "y", type := .base .bool }]
    ∃ l entries, fieldList current fields = .ok l ∧
      (context.fill l).render =
        "\"a\nb\" ((\"xs\" (thrift:list\n" ++
        "      5) :type (list i32) :id 1 :documentation \"u\nv\")\n" ++
        "    (\"y\" nil :type bool :id 2))" ∧
      fields.mapM (fieldEntry current) = .ok entries ∧
      LinedUp (context.fill l).render.toList context.front entries ∧
      lineLength context.front + 1 = 4 := by
  intro context current fields
  have hfields : ∃ l, fieldList current fields = .ok l := ⟨_, rfl⟩
  obtain ⟨l, hl⟩ := hfields
  obtain ⟨entries, hentries, hlined⟩ := (entries_line_up context).1 current fields l hl
  refine ⟨l, entries, hl, ?_, hentries, hlined, by decide +kernel⟩
  obtain rfl := Except.ok.inj hl
  decide +kernel

end IdlGen.Lisp
