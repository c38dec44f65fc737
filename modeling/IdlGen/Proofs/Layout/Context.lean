import IdlGen.Proofs.Layout.Indentation

/-!
# Parts of a layout in print

A context is a layout with one part left out. Up to that part, printing goes the same way whatever the
part is: the same text is written, and the part is come to with the same indentation and cursor (`spot`).
What the part then prints stands behind that text, and the cursor counts the columns of the text (`Sound`).
A part that begins with text pays at once what its line owes (`print_paid`).
-/

namespace IdlGen.Layout

/-- A layout with a part left out. -/
inductive Context where
  | hole
  | inFirst (context : Context) (second : Layout)
  | inSecond (first : Layout) (context : Context)
  | nest (width : Nat) (context : Context)
  | align (context : Context)

/-- What is printed when a part is come to, and the indentation and cursor there. -/
structure Spot where
  out : List Char := []
  indentation : Nat := 0
  cursor : Cursor := {}

/-- Where printing goes on behind a layout. -/
def Spot.behind (s : Spot) (l : Layout) : Spot :=
  { s with
    out := s.out ++ (l.print s.indentation s.cursor).1
    cursor := (l.print s.indentation s.cursor).2 }

namespace Context

def fill : Context → Layout → Layout
  | hole, l => l
  | inFirst context second, l => context.fill l ++ second
  | inSecond first context, l => first ++ context.fill l
  | nest width context, l => .nest width (context.fill l)
  | align context, l => .align (context.fill l)

/-- The first context with the second in its hole. -/
def comp : Context → Context → Context
  | hole, inner => inner
  | inFirst context second, inner => inFirst (context.comp inner) second
  | inSecond first context, inner => inSecond first (context.comp inner)
  | nest width context, inner => nest width (context.comp inner)
  | align context, inner => align (context.comp inner)

/-- Where the hole is come to from the beginning of the context. -/
def spot : Context → Spot → Spot
  | hole, s => s
  | inFirst context _, s => context.spot s
  | inSecond first context, s => context.spot (s.behind first)
  | nest width context, s => context.spot { s with indentation := s.indentation + width }
  | align context, s => context.spot { s with indentation := s.cursor.start }

/-- What stands in front of the hole, with the blanks that are owed there. -/
def front (context : Context) : List Char :=
  (context.spot {}).out ++ List.replicate ((context.spot {}).cursor.owed.getD 0) ' '

theorem fill_comp (outer inner : Context) (l : Layout) :
    (outer.comp inner).fill l = outer.fill (inner.fill l) := by
  induction outer with
  | hole => rfl
  | inFirst context second ih => simp only [comp, fill, ih]
  | inSecond first context ih => simp only [comp, fill, ih]
  | nest width context ih => simp only [comp, fill, ih]
  | align context ih => simp only [comp, fill, ih]

/-- Behind what is printed up to the hole stands what is printed of the part in it. -/
theorem print_fill (context : Context) (l : Layout) (s : Spot) :
    ∃ back, (s.behind (context.fill l)).out = ((context.spot s).behind l).out ++ back := by
  induction context generalizing s with
  | hole => exact ⟨[], (List.append_nil _).symm⟩
  | inFirst context second ih =>
    obtain ⟨back, hback⟩ := ih s
    let more := (second.print s.indentation (s.behind (context.fill l)).cursor).1
    refine ⟨back ++ more, ?_⟩
    rw [spot, ← List.append_assoc, ← hback]
    exact (List.append_assoc _ _ _).symm
  | inSecond first context ih =>
    obtain ⟨back, hback⟩ := ih (s.behind first)
    refine ⟨back, ?_⟩
    rw [spot, ← hback]
    exact (List.append_assoc _ _ _).symm
  | nest width context ih => exact ih { s with indentation := s.indentation + width }
  | align context ih => exact ih { s with indentation := s.cursor.start }

theorem render_fill (context : Context) (l : Layout) :
    ∃ back, (context.fill l).render.toList = ((context.spot {}).behind l).out ++ back := by
  rw [render, String.toList_ofList]
  exact context.print_fill l {}

end Context

/-! ### Columns -/

/-- The cursor is in the column where the text ends, or at the beginning of a line that owes blanks. -/
structure Cursor.EndsAt (c : Cursor) (out : List Char) : Prop where
  column : c.owed = none → c.column = lineLength out
  owed : c.owed ≠ none → lineLength out = 0

theorem Cursor.EndsAt.lineLength_paid {c : Cursor} {out : List Char} (h : c.EndsAt out) :
    lineLength (out ++ List.replicate (c.owed.getD 0) ' ') = c.start := by
  rw [lineLength_append, columnAfter_replicate, Cursor.start]
  cases howed : c.owed with
  | none => simp [h.column howed]
  | some n => simp [h.owed (by simp [howed])]

theorem Cursor.EndsAt.text {c : Cursor} {out : List Char} (h : c.EndsAt out) (s : List Char) :
    (printText s c).2.EndsAt (out ++ (printText s c).1) := by
  by_cases hs : s = []
  · subst hs
    rwa [← List.append_nil out] at h
  · rw [printText_of_ne_nil hs]
    refine ⟨fun _ => ?_, fun howed => absurd rfl howed⟩
    rw [← List.append_assoc, lineLength_append, h.lineLength_paid]

theorem Cursor.EndsAt.print {c : Cursor} {out : List Char} (h : c.EndsAt out) (l : Layout)
    (indentation : Nat) : (l.print indentation c).2.EndsAt (out ++ (l.print indentation c).1) := by
  induction l generalizing indentation c out with
  | empty =>
    simp only [Layout.print, List.append_nil]
    exact h
  | text s => exact h.text s.toList
  | line =>
    exact ⟨fun howed => absurd howed (Option.some_ne_none _), fun _ => lineLength_append out ['\n']⟩
  | append first second ihFirst ihSecond =>
    have hsecond := ihSecond (ihFirst h indentation) indentation
    rwa [List.append_assoc] at hsecond
  | nest width part ih => exact ih h _
  | align part ih => exact ih h _

theorem Context.spot_endsAt (context : Context) {s : Spot} (h : s.cursor.EndsAt s.out) :
    (context.spot s).cursor.EndsAt (context.spot s).out := by
  induction context generalizing s with
  | hole => exact h
  | inFirst context second ih => exact ih h
  | inSecond first context ih => exact ih (h.print first s.indentation)
  | nest width context ih => exact ih h
  | align context ih => exact ih h

/-- The front ends in the column where the part begins. -/
theorem Context.lineLength_front (context : Context) :
    lineLength context.front = (context.spot {}).cursor.start := by
  have hstart : Cursor.EndsAt {} [] := ⟨fun _ => rfl, fun howed => absurd rfl howed⟩
  exact (context.spot_endsAt (s := {}) hstart).lineLength_paid

/-! ### Parts that begin with text -/

/-- The text with which a layout begins, if it does not begin otherwise. -/
def opening? : Layout → Option String
  | text s => some s
  | append first _ => first.opening?
  | nest _ part => part.opening?
  | align part => part.opening?
  | _ => none

/-- What is printed of a layout in some column, whose line breaks go to that column. -/
def printAt (column : Nat) (l : Layout) : List Char := (l.print column ⟨column, none⟩).1

/-- A layout that begins with text pays at once, and is printed as if nothing had been owed. -/
theorem print_paid {l : Layout} {s : String} (hl : l.opening? = some s) (hs : s ≠ "")
    (indentation : Nat) (c : Cursor) :
    l.print indentation c =
      (List.replicate (c.owed.getD 0) ' ' ++ (l.print indentation ⟨c.start, none⟩).1,
        (l.print indentation ⟨c.start, none⟩).2) := by
  induction l generalizing indentation with
  | empty | line => cases hl
  | text t =>
    obtain rfl := Option.some.inj hl
    have hchars : t.toList ≠ [] := by simpa using hs
    simp only [print, printText_of_ne_nil hchars]
    exact Prod.ext rfl rfl
  | append first second ihFirst ihSecond =>
    simp only [print, ihFirst hl indentation, List.append_assoc]
  | nest width part ih => exact ih hl _
  | align part ih => exact ih hl _

theorem print_opening {l : Layout} {s : String} (hl : l.opening? = some s) (hs : s ≠ "")
    (indentation column : Nat) :
    ∃ rest, (l.print indentation ⟨column, none⟩).1 = s.toList ++ rest := by
  induction l generalizing indentation with
  | empty | line => cases hl
  | text t =>
    obtain rfl := Option.some.inj hl
    have hchars : t.toList ≠ [] := by simpa using hs
    refine ⟨[], ?_⟩
    rw [print, printText_of_ne_nil hchars, List.append_nil]
    rfl
  | append first second ihFirst ihSecond =>
    obtain ⟨rest, hrest⟩ := ihFirst hl indentation
    let more := (second.print indentation (first.print indentation ⟨column, none⟩).2).1
    exact ⟨rest ++ more, by simp only [print, hrest, List.append_assoc, more]⟩
  | nest width part ih => exact ih hl _
  | align part ih => exact ih hl _

end IdlGen.Layout
