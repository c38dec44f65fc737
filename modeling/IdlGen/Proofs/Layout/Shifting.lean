import IdlGen.Proofs.Layout.Indentation
import Mathlib.Data.List.Basic

/-!
# Nesting a whole layout

Nested deeper behind a line break, a layout is printed as it is by itself, with blanks in front of each
line that has text. The two prints go in step: wherever the line has no text yet, the nested one owes the
width on top of what the other starts with, and from its first text on both write the same, that many
columns apart (`Shifted`). Aligned parts follow, since they begin that many columns apart as well.
-/

namespace IdlGen.Layout

/-- No text of the layout breaks the line. -/
def Unbroken : Layout → Prop
  | empty => True
  | text s => '\n' ∉ s.toList
  | line => True
  | append first second => first.Unbroken ∧ second.Unbroken
  | nest _ part => part.Unbroken
  | align part => part.Unbroken

instance Unbroken.decidable : (l : Layout) → Decidable l.Unbroken
  | empty => .isTrue trivial
  | text s => inferInstanceAs (Decidable ('\n' ∉ s.toList))
  | line => .isTrue trivial
  | append first second =>
    have := decidable first
    have := decidable second
    inferInstanceAs (Decidable (first.Unbroken ∧ second.Unbroken))
  | nest _ part => decidable part
  | align part => decidable part

/-! ### Texts with their lines further in -/

/-- A line `k` columns further in. One without text stays empty. -/
def indentLine (k : Nat) (s : List Char) : List Char :=
  if s.isEmpty then [] else List.replicate k ' ' ++ s

/-- Every line of a text `k` columns further in. -/
def indentLines (k : Nat) (s : List Char) : List Char :=
  ['\n'].intercalate ((s.splitOn '\n').map (indentLine k))

/-- The same of a text behind another one, by whether that leaves its last line without text. -/
def indentFrom (k : Nat) (fresh : Bool) : List Char → List Char
  | [] => []
  | c :: cs =>
    (if fresh ∧ c ≠ '\n' then List.replicate k ' ' else []) ++ c :: indentFrom k (c = '\n') cs

/-- Whether the last line has no text. -/
def freshAfter (fresh : Bool) : List Char → Bool
  | [] => fresh
  | c :: cs => freshAfter (c = '\n') cs

variable {k : Nat}

theorem indentFrom_append (fresh : Bool) (s t : List Char) :
    indentFrom k fresh (s ++ t) = indentFrom k fresh s ++ indentFrom k (freshAfter fresh s) t := by
  induction s generalizing fresh with
  | nil => rfl
  | cons c s ih => simp only [List.cons_append, indentFrom, freshAfter, ih, List.append_assoc]

theorem freshAfter_append (fresh : Bool) (s t : List Char) :
    freshAfter fresh (s ++ t) = freshAfter (freshAfter fresh s) t := by
  induction s generalizing fresh with
  | nil => rfl
  | cons c s ih => exact ih _

/-- Text without line breaks is put further in where it begins a line. -/
theorem indentFrom_of_unbroken {s : List Char} (hs : '\n' ∉ s) (hne : s ≠ []) (fresh : Bool) :
    indentFrom k fresh s = (if fresh then List.replicate k ' ' else []) ++ s ∧
      freshAfter fresh s = false := by
  induction s generalizing fresh with
  | nil => exact absurd rfl hne
  | cons c s ih =>
    obtain ⟨hc, hs⟩ := not_or.1 (mt List.mem_cons.2 hs)
    simp only [indentFrom, freshAfter, Ne.symm hc, ne_eq, not_false_eq_true, and_true, decide_false]
    cases s with
    | nil => exact ⟨rfl, rfl⟩
    | cons d s =>
      obtain ⟨htext, hfresh⟩ := ih hs (List.cons_ne_nil d s) false
      exact ⟨by rw [htext]; rfl, hfresh⟩

theorem intercalate_append_left (separator s t : List Char) (more : List (List Char)) :
    separator.intercalate ((s ++ t) :: more) = s ++ separator.intercalate (t :: more) := by
  cases more with
  | nil => simp only [List.intercalate_singleton]
  | cons u more => simp only [List.intercalate_cons_cons, List.append_assoc]

/-- The lines of a text behind another one: the first of them is put further in only if it begins there. -/
theorem intercalate_indentLine (fresh : Bool) (s : List Char) :
    ∃ first more, s.splitOn '\n' = first :: more ∧
      ['\n'].intercalate ((if fresh then indentLine k first else first) :: more.map (indentLine k)) =
        indentFrom k fresh s := by
  induction s generalizing fresh with
  | nil => exact ⟨[], [], rfl, by cases fresh <;> rfl⟩
  | cons c s ih =>
    rw [List.splitOn_cons_eq_if_modifyHead]
    by_cases hc : c = '\n'
    · obtain ⟨first, more, hsplit, hfresh⟩ := ih true
      have hempty : (if fresh then indentLine k [] else []) = [] := by cases fresh <;> rfl
      refine ⟨[], first :: more, by simp [hc, hsplit], ?_⟩
      rw [hempty, List.map_cons, List.intercalate_cons_cons]
      simpa [indentFrom, hc] using hfresh
    · obtain ⟨first, more, hsplit, hbehind⟩ := ih false
      have hput : (if fresh then indentLine k (c :: first) else c :: first) =
          (if fresh then List.replicate k ' ' else []) ++ c :: first := by
        cases fresh <;> rfl
      refine ⟨c :: first, more, by simp [hc, hsplit], ?_⟩
      rw [hput, intercalate_append_left, List.intercalate_cons_cons_left]
      simpa [indentFrom, hc] using hbehind

theorem indentLines_eq (k : Nat) (s : List Char) : indentLines k s = indentFrom k true s := by
  obtain ⟨first, more, hsplit, hlines⟩ := intercalate_indentLine (k := k) true s
  rw [indentLines, hsplit]
  exact hlines

/-! ### Two prints in step -/

/-- The cursors of a print and of the same print `k` columns further in, by whether the line has no text
yet. -/
inductive Shifted (k : Nat) : Bool → Cursor → Cursor → Prop where
  | fresh {c c' : Cursor} (h : c.owed.getD 0 = c.start) (h' : c'.owed = some (c.start + k)) :
      Shifted k true c c'
  | behind (column : Nat) : Shifted k false ⟨column, none⟩ ⟨column + k, none⟩

variable {fresh : Bool} {c c' : Cursor}

theorem Shifted.start (h : Shifted k fresh c c') : c'.start = c.start + k := by
  cases h with
  | fresh h h' => rw [Cursor.start, h', Option.getD_some]
  | behind column => rfl

theorem columnAfter_of_unbroken {s : List Char} (hs : '\n' ∉ s) (column : Nat) :
    columnAfter column s = column + s.length := by
  induction s generalizing column with
  | nil => rfl
  | cons c s ih =>
    obtain ⟨hc, hs⟩ := not_or.1 (mt List.mem_cons.2 hs)
    rw [columnAfter, if_neg (Ne.symm hc), ih hs, List.length_cons]
    omega

theorem Shifted.text {s : List Char} (hs : '\n' ∉ s) (h : Shifted k fresh c c') :
    (printText s c').1 = indentFrom k fresh (printText s c).1 ∧
      Shifted k (freshAfter fresh (printText s c).1) (printText s c).2 (printText s c').2 := by
  by_cases hne : s = []
  · subst hne
    exact ⟨rfl, h⟩
  · have hcolumn : columnAfter c'.start s = columnAfter c.start s + k := by
      rw [columnAfter_of_unbroken hs, columnAfter_of_unbroken hs, h.start]
      omega
    have hpaid : '\n' ∉ List.replicate (c.owed.getD 0) ' ' ++ s := by simp [hs]
    obtain ⟨htext, hfresh⟩ := indentFrom_of_unbroken (k := k) hpaid (by simp [hne]) fresh
    simp only [printText_of_ne_nil hne, htext, hfresh, hcolumn]
    refine ⟨?_, .behind _⟩
    cases h with
    | fresh h h' =>
      rw [h, h', Option.getD_some, Nat.add_comm, ← List.replicate_append_replicate,
        List.append_assoc]
      rfl
    | behind column => rfl

/-- A layout behind cursors in step is printed in step. -/
theorem print_shifted {l : Layout} (hl : l.Unbroken) (indentation : Nat)
    (h : Shifted k fresh c c') :
    (l.print (indentation + k) c').1 = indentFrom k fresh (l.print indentation c).1 ∧
      Shifted k (freshAfter fresh (l.print indentation c).1) (l.print indentation c).2
        (l.print (indentation + k) c').2 := by
  induction l generalizing indentation fresh c c' with
  | empty => exact ⟨rfl, h⟩
  | text s => exact h.text hl
  | line => exact ⟨by simp [print, indentFrom], .fresh rfl rfl⟩
  | append first second ihFirst ihSecond =>
    obtain ⟨hfirst, hbetween⟩ := ihFirst hl.1 indentation h
    obtain ⟨hsecond, hbehind⟩ := ihSecond hl.2 indentation hbetween
    simp only [print, indentFrom_append, freshAfter_append, hfirst, hsecond]
    exact ⟨trivial, hbehind⟩
  | nest width part ih =>
    simp only [print, Nat.add_right_comm indentation k width]
    exact ih hl (indentation + width) h
  | align part ih =>
    simp only [print, h.start]
    exact ih hl c.start h

/-- Behind a line break and nested by a width, a layout whose texts break no line is printed as by itself,
with that many blanks in front of every line that has text, whatever is nested or aligned in it. -/
theorem render_nest_line {l : Layout} (hl : l.Unbroken) (k : Nat) :
    (nest k (line ++ l)).render.toList = '\n' :: indentLines k l.render.toList := by
  have hstart : Shifted k true {} ⟨0, some (0 + k)⟩ := .fresh rfl rfl
  obtain ⟨hprint, -⟩ := print_shifted hl 0 hstart
  rw [indentLines_eq, render, String.toList_ofList, render, String.toList_ofList, ← hprint]
  rfl

/-- An aligned row with an empty line in it, and a nested line below. -/
theorem render_nest_line_rows :
    let l := Layout.text "(" ++ align (join .line ["x", "", "y"]) ++ nest 1 (line ++ Layout.text "z)")
    l.Unbroken ∧ l.render.toList = "(x\n\n y\n z)".toList ∧
      (nest 2 (line ++ l)).render.toList = "\n  (x\n\n   y\n   z)".toList := by
  intro l
  have hl : l.Unbroken := by decide
  exact ⟨hl, by decide +kernel, (render_nest_line hl 2).trans (by decide +kernel)⟩

end IdlGen.Layout
