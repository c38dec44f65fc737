import IdlGen.Proofs.Layout.Context
import Mathlib.Logic.Relation

/-!
# Cutting and grouping

How a layout is put together does not show in print. A text may be cut anywhere, next to a line break and
into empty pieces as well; parts may be grouped or stand by themselves; and a part without line breaks may
be nested or aligned. Two such layouts print the same from every cursor and leave the same cursor behind
(`PrintAlike`), so an aligned part later on begins in the same column, and no context tells them apart.
-/

namespace IdlGen.Layout

/-- No line breaks other than those in texts. -/
def LineFree : Layout → Prop
  | empty => True
  | text _ => True
  | line => False
  | append first second => first.LineFree ∧ second.LineFree
  | nest _ part => part.LineFree
  | align part => part.LineFree

/-- The second layout is the first one, cut or grouped in another way at the top. -/
inductive Recasts : Layout → Layout → Prop
  /-- A text is cut into any pieces, of which there may be none if it is empty. -/
  | cut (pieces : List String) : Recasts (text (String.join pieces)) (concat (pieces.map text))
  /-- The parts of a group stand among the parts around it. A group of none goes away. -/
  | flatten (before group after : List Layout) :
      Recasts (concat (before ++ concat group :: after)) (concat (before ++ (group ++ after)))
  | dropText (before after : List Layout) :
      Recasts (concat (before ++ text "" :: after)) (concat (before ++ after))
  | unnest (width : Nat) {part : Layout} (h : part.LineFree) : Recasts (nest width part) part
  | unalign {part : Layout} (h : part.LineFree) : Recasts (align part) part

/-- The same layout but for cuts and groups, made and unmade anywhere in it. -/
def Regrouped : Layout → Layout → Prop :=
  Relation.EqvGen fun l l' => ∃ (context : Context) (part part' : Layout), Recasts part part' ∧
    l = context.fill part ∧ l' = context.fill part'

/-! ### Printing alike -/

/-- The same is printed from every cursor, and printing goes on with the same cursor. -/
def PrintAlike (l l' : Layout) : Prop := ∀ indentation c, l.print indentation c = l'.print indentation c

namespace PrintAlike

variable {l l' m m' : Layout}

theorem refl (l : Layout) : PrintAlike l l := fun _ _ => rfl

theorem symm (h : PrintAlike l l') : PrintAlike l' l := fun indentation c => (h indentation c).symm

theorem trans (h : PrintAlike l l') (h' : PrintAlike l' m) : PrintAlike l m :=
  fun indentation c => (h indentation c).trans (h' indentation c)

theorem append (h : PrintAlike l l') (h' : PrintAlike m m') : PrintAlike (l ++ m) (l' ++ m') := by
  intro indentation c
  change (Layout.append l m).print _ _ = (Layout.append l' m').print _ _
  simp only [print, h indentation c, h' indentation _]

theorem fill (h : PrintAlike l l') (context : Context) :
    PrintAlike (context.fill l) (context.fill l') := by
  induction context with
  | hole => exact h
  | inFirst context second ih => exact ih.append (refl second)
  | inSecond first context ih => exact (refl first).append ih
  | nest width context ih => exact fun indentation c => ih (indentation + width) c
  | align context ih => exact fun _ c => ih c.start c

theorem render (h : PrintAlike l l') : l.render = l'.render := by
  rw [Layout.render, Layout.render, h]

end PrintAlike

/-! ### Groups -/

theorem printAlike_empty_append (l : Layout) : PrintAlike (empty ++ l) l := fun _ _ => rfl

theorem printAlike_append_assoc (l m n : Layout) : PrintAlike (l ++ m ++ n) (l ++ (m ++ n)) := by
  intro indentation c
  change (append (append l m) n).print _ _ = (append l (append m n)).print _ _
  simp only [print, List.append_assoc]

theorem printAlike_concat_append (parts more : List Layout) :
    PrintAlike (concat (parts ++ more)) (concat parts ++ concat more) := by
  induction parts with
  | nil => exact printAlike_empty_append _
  | cons part parts ih =>
    have hassoc := printAlike_append_assoc part (concat parts) (concat more)
    exact ((PrintAlike.refl part).append ih).trans hassoc.symm

theorem PrintAlike.among {group group' : Layout} (before after : List Layout)
    (h : PrintAlike (group ++ concat after) group') :
    PrintAlike (concat (before ++ group :: after)) (concat before ++ group') :=
  (printAlike_concat_append before (group :: after)).trans ((PrintAlike.refl _).append h)

/-! ### Texts -/

theorem columnAfter_append (column : Nat) (s t : List Char) :
    columnAfter column (s ++ t) = columnAfter (columnAfter column s) t := by
  induction s generalizing column with
  | nil => rfl
  | cons c s ih => exact ih _

/-- The first piece that is not empty pays what is owed, so the cut makes no difference to the rest. -/
theorem printText_append (s t : List Char) (c : Cursor) :
    printText (s ++ t) c =
      ((printText s c).1 ++ (printText t (printText s c).2).1, (printText t (printText s c).2).2) := by
  by_cases hs : s = []
  · subst hs
    rfl
  · by_cases ht : t = []
    · subst ht
      rw [List.append_nil]
      exact Prod.ext (List.append_nil _).symm rfl
    · have hboth : s ++ t ≠ [] := fun hnil => hs (List.append_eq_nil_iff.1 hnil).1
      simp only [printText_of_ne_nil hs, printText_of_ne_nil ht, printText_of_ne_nil hboth,
        columnAfter_append, Option.getD_none, List.replicate_zero, List.nil_append, List.append_assoc]
      rfl

theorem printAlike_pieces (pieces : List String) :
    PrintAlike (text (String.join pieces)) (concat (pieces.map text)) := by
  induction pieces with
  | nil => exact fun _ _ => rfl
  | cons piece pieces ih =>
    intro indentation c
    have hrest := ih indentation (printText piece.toList c).2
    change printText _ _ = _ at hrest
    change _ = (append (text piece) (concat (pieces.map text))).print indentation c
    simp only [print, ← hrest, String.join_cons, String.toList_append]
    exact printText_append _ _ c

/-! ### Parts without line breaks -/

/-- Only line breaks ask for the indentation. -/
theorem LineFree.print_eq {l : Layout} (h : l.LineFree) (indentation other : Nat) (c : Cursor) :
    l.print indentation c = l.print other c := by
  induction l generalizing indentation other c with
  | empty | text s => rfl
  | line => exact absurd h id
  | append first second ihFirst ihSecond =>
    simp only [print, ihFirst h.1 indentation other, ihSecond h.2 indentation other]
  | nest width part ih => exact ih h _ _ c
  | align part ih => rfl

/-! ### Whole layouts -/

theorem Recasts.printAlike {l l' : Layout} (h : Recasts l l') : PrintAlike l l' := by
  cases h with
  | cut pieces => exact printAlike_pieces pieces
  | flatten before group after =>
    have hgroup := (printAlike_concat_append group after).symm
    exact (hgroup.among before after).trans (printAlike_concat_append before (group ++ after)).symm
  | dropText before after =>
    have htext : PrintAlike (text "" ++ concat after) (concat after) := fun _ _ => rfl
    exact (htext.among before after).trans (printAlike_concat_append before after).symm
  | unnest width h => exact fun indentation c => h.print_eq _ _ c
  | unalign h => exact fun indentation c => h.print_eq _ _ c

theorem Regrouped.printAlike {l l' : Layout} (h : Regrouped l l') : PrintAlike l l' := by
  induction h with
  | rel l l' h =>
    obtain ⟨context, part, part', hrecasts, rfl, rfl⟩ := h
    exact hrecasts.printAlike.fill context
  | refl l => exact .refl l
  | symm l l' h ih => exact ih.symm
  | trans l l' m h h' ih ih' => exact ih.trans ih'

/-- Layouts that differ in cuts and groups only are rendered alike in every context. -/
theorem render_regrouped {l l' : Layout} (h : Regrouped l l') (context : Context) :
    (context.fill l).render = (context.fill l').render := (h.printAlike.fill context).render

/-- A text cut before its line break, with an empty piece, in front of an aligned part, whose column depends
on the last piece. -/
theorem render_regrouped_column :
    let rows := align (concat ["x", line, "y"])
    let whole := concat ["a\n(z", rows]
    let pieces := concat ["a", "", "\n(", nest 3 "z", rows]
    let context := Context.nest 2 (.inSecond (concat [line, "b"]) .hole)
    Regrouped whole pieces ∧ (context.fill whole).render = (context.fill pieces).render ∧
      (context.fill pieces).render = "\n  ba\n(zx\n  y" := by
  intro rows whole pieces context
  have hcut : Regrouped whole (concat [concat ["a", "", "\n(", "z"], rows]) :=
    .rel _ _ ⟨.inFirst .hole (concat [rows]), _, _, .cut ["a", "", "\n(", "z"], rfl, rfl⟩
  have hflatten : Regrouped (concat [concat ["a", "", "\n(", "z"], rows])
      (concat ["a", "", "\n(", "z", rows]) :=
    .rel _ _ ⟨.hole, _, _, .flatten [] ["a", "", "\n(", "z"] [rows], rfl, rfl⟩
  have hunnest : Regrouped pieces (concat ["a", "", "\n(", "z", rows]) :=
    .rel _ _ ⟨.inSecond "a" (.inSecond "" (.inSecond "\n(" (.inFirst .hole (concat [rows])))), _, _,
      @Recasts.unnest 3 "z" trivial, rfl, rfl⟩
  have hregrouped : Regrouped whole pieces := .trans _ _ _ hcut (.trans _ _ _ hflatten (.symm _ _ hunnest))
  exact ⟨hregrouped, render_regrouped hregrouped context, by decide +kernel⟩

end IdlGen.Layout
