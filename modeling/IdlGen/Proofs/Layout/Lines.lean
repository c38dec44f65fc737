import IdlGen.Proofs.Layout.Indentation
import Mathlib.Data.List.Forall2

/-!
# Lines of a printed layout

How the lines of a print begin can be told part by part. The text with which a part opens goes to the line
where the part stands, wherever that is, and each line break in the part begins a line of its own: so many
columns deeper than the part, and with a text that is known (`Opens`). Behind other text, a part that begins
with a line break only adds lines (`Breaks`).
-/

namespace IdlGen.Layout

/-! ### Lines -/

/-- The text up to the first line break. -/
def firstLine (s : List Char) : List Char := s.takeWhile (· ≠ '\n')

/-- What stands behind each line break of a text. -/
def behindBreaks : List Char → List (List Char)
  | [] => []
  | c :: cs => if c = '\n' then cs :: behindBreaks cs else behindBreaks cs

theorem behindBreaks_append (s t : List Char) :
    behindBreaks (s ++ t) = (behindBreaks s).map (· ++ t) ++ behindBreaks t := by
  induction s with
  | nil => rfl
  | cons c s ih =>
    by_cases hc : c = '\n'
    · simp only [List.cons_append, behindBreaks, if_pos hc, ih, List.map_cons]
    · simp only [List.cons_append, behindBreaks, if_neg hc, ih]

theorem behindBreaks_of_unbroken {s : List Char} (hs : '\n' ∉ s) : behindBreaks s = [] := by
  induction s with
  | nil => rfl
  | cons c s ih =>
    obtain ⟨hc, hs⟩ := not_or.1 (mt List.mem_cons.2 hs)
    rw [behindBreaks, if_neg (Ne.symm hc), ih hs]

/-- The lines of a text are its first and the one behind each line break. -/
theorem splitOn_newline (s : List Char) :
    s.splitOn '\n' = firstLine s :: (behindBreaks s).map firstLine := by
  induction s with
  | nil => rfl
  | cons c s ih =>
    rw [List.splitOn_cons_eq_if_modifyHead, ih]
    by_cases hc : c = '\n'
    · simp [hc, firstLine, behindBreaks]
    · simp [hc, firstLine, behindBreaks]

theorem firstLine_append {s : List Char} (hs : '\n' ∉ s) (t : List Char) :
    firstLine (s ++ t) = s ++ firstLine t := by
  apply List.takeWhile_append_of_pos
  intro c hc
  simpa using ne_of_mem_of_not_mem hc hs

theorem forall₂_comp {α β γ : Type} {R : α → β → Prop} {S : β → γ → Prop} {T : α → γ → Prop}
    {as : List α} {bs : List β} {cs : List γ} (h : List.Forall₂ R as bs) (h' : List.Forall₂ S bs cs)
    (hcomp : ∀ a b c, R a b → S b c → T a c) : List.Forall₂ T as cs := by
  induction h generalizing cs with
  | nil =>
    cases h'
    exact .nil
  | cons hab hrest ih =>
    cases h' with
    | cons hbc hrest' => exact .cons (hcomp _ _ _ hab hbc) (ih hrest')

/-! ### Rows -/

/-- The beginning of a line: how much deeper it is indented than a part, and the text that follows. -/
structure Row where
  indent : Nat := 0
  text : List Char

def Row.deeper (width : Nat) (row : Row) : Row := { row with indent := row.indent + width }

/-- The line that is printed here for a part of some indentation begins as the row says. -/
def Row.Begins (indentation : Nat) (row : Row) (behind : List Char) : Prop :=
  '\n' ∉ row.text ∧ List.replicate (indentation + row.indent) ' ' ++ row.text <+: behind

/-- A text that begins with a line break, or has none, and whose lines begin as the rows say. -/
structure Continues (indentation : Nat) (rows : List Row) (rest : List Char) : Prop where
  fresh : rest = [] ∨ ∃ more, rest = '\n' :: more
  rows : List.Forall₂ (Row.Begins indentation) rows (behindBreaks rest)

variable {i : Nat} {rows rows' : List Row} {rest rest' s opening : List Char}

theorem Continues.nothing : Continues i [] [] := ⟨.inl rfl, .nil⟩

theorem Continues.eq_nil (h : Continues i [] rest) : rest = [] := by
  rcases h.fresh with rfl | ⟨more, rfl⟩
  · rfl
  · cases h.rows

theorem Continues.append (h : Continues i rows rest) (h' : Continues i rows' rest') :
    Continues i (rows ++ rows') (rest ++ rest') := by
  refine ⟨?_, ?_⟩
  · rcases h.fresh with rfl | ⟨more, rfl⟩
    · exact h'.fresh
    · exact .inr ⟨more ++ rest', rfl⟩
  · rw [behindBreaks_append]
    refine List.rel_append (List.forall₂_map_right_iff.2 (h.rows.imp ?_)) h'.rows
    exact fun row behind hbegins => ⟨hbegins.1, hbegins.2.trans (List.prefix_append behind rest')⟩

/-- More text on the last line, if there is a line. -/
theorem Continues.text (h : Continues i rows rest) (hrows : rows ≠ []) (hs : '\n' ∉ s) :
    Continues i rows (rest ++ s) := by
  refine ⟨?_, ?_⟩
  · rcases h.fresh with rfl | ⟨more, rfl⟩
    · cases h.rows
      exact absurd rfl hrows
    · exact .inr ⟨more ++ s, rfl⟩
  · rw [behindBreaks_append, behindBreaks_of_unbroken hs, List.append_nil]
    refine List.forall₂_map_right_iff.2 (h.rows.imp ?_)
    exact fun row behind hbegins => ⟨hbegins.1, hbegins.2.trans (List.prefix_append behind s)⟩

theorem Continues.line (hopening : '\n' ∉ opening) (h : Continues i rows rest) :
    Continues i (⟨0, opening⟩ :: rows) ('\n' :: (List.replicate i ' ' ++ opening ++ rest)) := by
  refine ⟨.inr ⟨_, rfl⟩, .cons ⟨hopening, List.prefix_append _ rest⟩ ?_⟩
  rw [behindBreaks_append, behindBreaks_append, behindBreaks_of_unbroken (by simp),
    behindBreaks_of_unbroken hopening]
  exact h.rows

theorem Continues.nest {width : Nat} (h : Continues (i + width) rows rest) :
    Continues i (rows.map (Row.deeper width)) rest := by
  refine ⟨h.fresh, List.forall₂_map_left_iff.2 (h.rows.imp ?_)⟩
  intro row behind hbegins
  rwa [Row.Begins, Row.deeper, Nat.add_comm row.indent, ← Nat.add_assoc]

/-! ### Parts -/

/-- The part begins with this text, and its line breaks begin these rows. -/
structure Opens (l : Layout) (opening : List Char) (rows : List Row) : Prop where
  ne_nil : opening ≠ []
  unbroken : '\n' ∉ opening
  print : ∀ i c, ∃ rest, (l.print i c).1 = List.replicate (c.owed.getD 0) ' ' ++ opening ++ rest ∧
    (l.print i c).2.owed = none ∧ Continues i rows rest

/-- Behind text, the part only begins these rows. -/
def Breaks (l : Layout) (rows : List Row) : Prop :=
  ∀ i c, c.owed = none → (l.print i c).2.owed = none ∧ Continues i rows (l.print i c).1

variable {a b l : Layout} {opening' : List Char}

theorem Opens.text {t : String} (hne : t ≠ "") (ht : '\n' ∉ t.toList) :
    Opens (.text t) t.toList [] := by
  have hchars : t.toList ≠ [] := by simpa using hne
  refine ⟨hchars, ht, fun i c => ⟨[], ?_⟩⟩
  rw [Layout.print, printText_of_ne_nil hchars, List.append_nil]
  exact ⟨rfl, rfl, .nothing⟩

/-- Two parts, the first on one line. -/
theorem Opens.append_line (ha : Opens a opening []) (hb : Opens b opening' rows) :
    Opens (a ++ b) (opening ++ opening') rows := by
  refine ⟨by simp [ha.ne_nil], by simp [ha.unbroken, hb.unbroken], fun i c => ?_⟩
  obtain ⟨rest, hprint, howed, hrest⟩ := ha.print i c
  obtain rfl := hrest.eq_nil
  obtain ⟨rest', hprint', howed', hrest'⟩ := hb.print i (a.print i c).2
  refine ⟨rest', ?_, howed', hrest'⟩
  change (a.print i c).1 ++ (b.print i (a.print i c).2).1 = _
  rw [hprint, hprint', howed]
  simp

/-- Two parts, the first on many lines. -/
theorem Opens.append_lines (ha : Opens a opening rows) (hrows : rows ≠ [])
    (hb : Opens b opening' rows') : Opens (a ++ b) opening (rows ++ rows') := by
  refine ⟨ha.ne_nil, ha.unbroken, fun i c => ?_⟩
  obtain ⟨rest, hprint, howed, hrest⟩ := ha.print i c
  obtain ⟨rest', hprint', howed', hrest'⟩ := hb.print i (a.print i c).2
  refine ⟨rest ++ opening' ++ rest', ?_, howed', (hrest.text hrows hb.unbroken).append hrest'⟩
  change (a.print i c).1 ++ (b.print i (a.print i c).2).1 = _
  rw [hprint, hprint', howed]
  simp

/-- Two parts: the text with which the second opens stands on the last line of the first. -/
theorem Opens.append (ha : Opens a opening rows) (hb : Opens b opening' rows') :
    Opens (a ++ b) (if rows = [] then opening ++ opening' else opening) (rows ++ rows') := by
  split
  · rename_i hrows
    subst hrows
    exact ha.append_line hb
  · rename_i hrows
    exact ha.append_lines hrows hb

theorem Opens.append_breaks (ha : Opens a opening rows) (hb : Breaks b rows') :
    Opens (a ++ b) opening (rows ++ rows') := by
  refine ⟨ha.ne_nil, ha.unbroken, fun i c => ?_⟩
  obtain ⟨rest, hprint, howed, hrest⟩ := ha.print i c
  obtain ⟨howed', hrest'⟩ := hb i (a.print i c).2 howed
  refine ⟨rest ++ (b.print i (a.print i c).2).1, ?_, howed', hrest.append hrest'⟩
  change (a.print i c).1 ++ (b.print i (a.print i c).2).1 = _
  rw [hprint, List.append_assoc]

theorem Breaks.empty : Breaks .empty [] := fun _ _ howed => ⟨howed, .nothing⟩

/-- A part behind a line break, and more lines. -/
theorem Breaks.line (ha : Opens a opening rows) (hb : Breaks b rows') :
    Breaks (.line ++ (a ++ b)) (⟨0, opening⟩ :: rows ++ rows') := by
  intro i c _
  obtain ⟨rest, hprint, howed, hrest⟩ := ha.print i ⟨0, some i⟩
  obtain ⟨howed', hrest'⟩ := hb i (a.print i ⟨0, some i⟩).2 howed
  refine ⟨howed', ?_⟩
  change Continues i _ ('\n' ::
    ((a.print i ⟨0, some i⟩).1 ++ (b.print i (a.print i ⟨0, some i⟩).2).1))
  rw [hprint]
  exact (hrest.line ha.unbroken).append hrest'

theorem Breaks.indent (h : Breaks l rows) : Breaks l.indent (rows.map (Row.deeper 2)) := by
  intro i c howed
  obtain ⟨howed', hrest⟩ := h (i + 2) c howed
  exact ⟨howed', hrest.nest⟩

/-! ### Whole layouts -/

theorem Opens.firstLine_render (h : Opens l opening rows) : firstLine l.render.toList = opening := by
  obtain ⟨rest, hprint, -, hrest⟩ := h.print 0 {}
  have hfirst : firstLine rest = [] := by
    rcases hrest.fresh with rfl | ⟨more, rfl⟩
    · rfl
    · simp [firstLine]
  rw [render, String.toList_ofList, hprint]
  change firstLine (opening ++ rest) = opening
  rw [firstLine_append h.unbroken, hfirst, List.append_nil]

/-- Behind the first, a layout by itself has a line for each row, which begins as the row says. -/
theorem Opens.lines (h : Opens l opening rows) :
    ∃ lines, l.render.toList.splitOn '\n' = opening :: lines ∧
      List.Forall₂ (fun row line => List.replicate row.indent ' ' ++ row.text <+: line) rows lines := by
  refine ⟨(behindBreaks l.render.toList).map firstLine, ?_, ?_⟩
  · rw [splitOn_newline, h.firstLine_render]
  · obtain ⟨rest, hprint, -, hrest⟩ := h.print 0 {}
    have hbehind : behindBreaks l.render.toList = behindBreaks rest := by
      rw [render, String.toList_ofList, hprint]
      change behindBreaks (opening ++ rest) = _
      rw [behindBreaks_append, behindBreaks_of_unbroken h.unbroken]
      rfl
    rw [hbehind]
    refine List.forall₂_map_right_iff.2 (hrest.rows.imp ?_)
    rintro row behind ⟨htext, more, rfl⟩
    have hunbroken : '\n' ∉ List.replicate (0 + row.indent) ' ' ++ row.text := by
      simp [htext]
    rw [firstLine_append hunbroken, Nat.zero_add]
    exact List.prefix_append _ _

end IdlGen.Layout
