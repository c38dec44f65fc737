import IdlGen.Layout
import IdlGen.Proofs.Except
import IdlGen.Proofs.Lisp.Reader
import Mathlib.Data.List.Forall2

/-!
# Reading what is printed

Printing puts blanks in front of the first text of a line, and only there. As long as no line breaks
inside a string, the reader stands between forms when they come and passes over them, so what a
printed layout is read as does not depend on its nesting, on its alignment or on the column where it
begins (`run_print`). Reading can then be done on the layout itself, part by part.

A part is looked at from a state between forms (`Yields`), or also from one in which an atom may be
unfinished (`Follows`). Only parts of the second kind may stand directly behind an atom.
-/

namespace IdlGen.Lisp.Reader

/-- A line break, which no string may contain. -/
def breakLine (s : State) : Option State :=
  match s.mode with
  | .string _ => none
  | .escape _ => none
  | _ => step s '\n'

/-- Reads a layout without its indentation. -/
def readLayout : Layout → State → Option State
  | .empty, s => some s
  | .text t, s => run t.toList s
  | .line, s => breakLine s
  | .append first second, s => (readLayout first s).bind (readLayout second)
  | .nest _ part, s => readLayout part s
  | .align part, s => readLayout part s

/-! ### Indentation -/

theorem run_blanks {s : State} (hs : s.mode = .between) (n : Nat) :
    run (List.replicate n ' ') s = some s := by
  induction n with
  | zero => rfl
  | succ n ih =>
    have hstep : step s ' ' = some s := by
      simp only [step, hs]
      rfl
    rw [List.replicate_succ, run_cons, hstep]
    exact ih

theorem mode_breakLine {s s' : State} (h : breakLine s = some s') : s'.mode = .between := by
  obtain ⟨mode, level, outer⟩ := s
  cases mode with
  | string soFar => cases h
  | escape soFar => cases h
  | between | comment | atom soFar =>
    obtain rfl := Option.some.inj h
    rfl

theorem breakLine_eq_step {s s' : State} (h : breakLine s = some s') : step s '\n' = some s' := by
  obtain ⟨mode, level, outer⟩ := s
  cases mode with
  | string soFar => cases h
  | escape soFar => cases h
  | between | comment | atom soFar => exact h

/-- Whatever the indentation, a printed layout is read as the layout itself is. Indentation is owed
only where the reader stands between forms. -/
theorem run_print {l : Layout} (indentation : Nat) (c : Layout.Cursor) {s s' : State}
    (h : readLayout l s = some s') (howed : c.owed ≠ none → s.mode = .between) :
    run (l.print indentation c).1 s = some s' ∧
      ((l.print indentation c).2.owed ≠ none → s'.mode = .between) := by
  induction l generalizing indentation c s s' with
  | empty =>
    obtain rfl := Option.some.inj h
    exact ⟨rfl, howed⟩
  | text t =>
    simp only [Layout.print, Layout.printText]
    split
    · rename_i hempty
      have hnil : t.toList = [] := List.isEmpty_iff.1 hempty
      simp only [readLayout, hnil, run_nil] at h
      obtain rfl := Option.some.inj h
      exact ⟨rfl, howed⟩
    · refine ⟨?_, fun hsome => absurd rfl hsome⟩
      have hblanks : run (List.replicate (c.owed.getD 0) ' ') s = some s := by
        cases hc : c.owed with
        | none => rfl
        | some n => exact run_blanks (howed (by simp [hc])) n
      rw [run_append, hblanks]
      exact h
  | line =>
    refine ⟨?_, fun _ => mode_breakLine h⟩
    change (step s '\n').bind (run []) = _
    rw [breakLine_eq_step h]
    rfl
  | append first second ihFirst ihSecond =>
    obtain ⟨t, hfirst, hsecond⟩ := Option.bind_eq_some_iff.1 h
    -- What the first part leaves owed is owed in front of the second one.
    obtain ⟨hrunFirst, howedFirst⟩ := ihFirst indentation c hfirst howed
    obtain ⟨hrunSecond, howedSecond⟩ := ihSecond indentation _ hsecond howedFirst
    refine ⟨?_, howedSecond⟩
    simp only [Layout.print]
    rw [run_append, hrunFirst]
    exact hrunSecond
  | nest width part ih => exact ih _ c h howed
  | align part ih => exact ih _ c h howed

/-! ### Parts -/

theorem readLayout_append (a b : Layout) (s : State) :
    readLayout (a ++ b) s = (readLayout a s).bind (readLayout b) := rfl

theorem readLayout_text_append (a b : String) (s : State) :
    readLayout (.text (a ++ b)) s = (readLayout (.text a) s).bind (readLayout (.text b)) := by
  simp only [readLayout, String.toList_append, run_append]

theorem readLayout_texts (a b : String) :
    readLayout (.text a ++ .text b) = readLayout (.text (a ++ b)) :=
  funext fun s => (readLayout_text_append a b s).symm

@[simp] theorem readLayout_indent (l : Layout) : readLayout l.indent = readLayout l := rfl

@[simp] theorem readLayout_align (l : Layout) : readLayout l.align = readLayout l := rfl

/-- Read between forms, the layout adds these forms, up to an unfinished atom at its end. -/
def Yields (l : Layout) (forms : List Sexp) : Prop :=
  ∀ s : State, s.mode = .between →
    ∃ s', readLayout l s = some s' ∧ s'.settle = s.addAll forms

/-- The same, also behind an unfinished atom. -/
def Follows (l : Layout) (forms : List Sexp) : Prop :=
  ∀ s : State, s.settle.mode = .between →
    ∃ s', readLayout l s = some s' ∧ s'.settle = s.settle.addAll forms

/-- Finishes an atom and adds nothing. -/
def Blank (l : Layout) : Prop :=
  ∀ s : State, s.settle.mode = .between → readLayout l s = some s.settle

/-- Each part yields one form. -/
def YieldsEach (parts : List Layout) (forms : List Sexp) : Prop :=
  List.Forall₂ (fun part form => Yields part [form]) parts forms

variable {a b l : Layout} {fs gs : List Sexp}

theorem Follows.yields (h : Follows l fs) : Yields l fs := by
  intro s hs
  have hsettle := State.settle_between hs
  simpa only [hsettle] using h s (by rw [hsettle, hs])

theorem Yields.congr (h : Yields l fs) (hsame : ∀ s, readLayout a s = readLayout l s) :
    Yields a fs := by
  intro s hs
  rw [hsame]
  exact h s hs

theorem Follows.congr (h : Follows l fs) (hsame : ∀ s, readLayout a s = readLayout l s) :
    Follows a fs := by
  intro s hs
  rw [hsame]
  exact h s hs

theorem Follows.empty : Follows .empty [] := fun s _ => ⟨s, rfl, rfl⟩

/-- What is read between forms may end in an unfinished atom, which the next part finishes. -/
theorem Follows.behind {s t : State} (ht : t.mode = .between) (hb : Follows b gs)
    (ha : ∃ s', readLayout a s = some s' ∧ s'.settle = t.addAll fs) :
    ∃ s', readLayout (a ++ b) s = some s' ∧ s'.settle = t.addAll (fs ++ gs) := by
  obtain ⟨s₁, hread₁, hs₁⟩ := ha
  obtain ⟨s₂, hread₂, hs₂⟩ := hb s₁ (by rw [hs₁, State.mode_addAll, ht])
  refine ⟨s₂, by rw [readLayout_append, hread₁, Option.bind_some, hread₂], ?_⟩
  rw [hs₂, hs₁, State.addAll_append]

theorem Yields.append (ha : Yields a fs) (hb : Follows b gs) : Yields (a ++ b) (fs ++ gs) := by
  intro s hs
  exact hb.behind hs (ha s hs)

theorem Follows.append (ha : Follows a fs) (hb : Follows b gs) : Follows (a ++ b) (fs ++ gs) := by
  intro s hs
  exact hb.behind hs (ha s hs)

/-- Behind a blank anything may stand. -/
theorem Blank.append (ha : Blank a) (hb : Yields b gs) : Follows (a ++ b) gs := by
  intro s hs
  obtain ⟨s', hread, hs'⟩ := hb s.settle hs
  exact ⟨s', by rw [readLayout_append, ha s hs, Option.bind_some, hread], hs'⟩

/-- A text that starts with a character that cannot belong to an atom. -/
theorem readLayout_settle {t : String} {c : Char} {cs : List Char} (ht : t.toList = c :: cs)
    (hc : isAtomChar c = false) (s : State) :
    readLayout (.text t) s.settle = readLayout (.text t) s := by
  simp only [readLayout, ht, run_settle hc]

theorem blank_line : Blank .line := by
  intro s hs
  obtain ⟨mode, level, outer⟩ := s
  cases mode with
  | between | atom soFar => rfl
  | comment | string soFar | escape soFar => cases hs

theorem blank_space : Blank (.text " ") := by
  intro s hs
  obtain ⟨mode, level, outer⟩ := s
  cases mode with
  | between | atom soFar => rfl
  | comment | string soFar | escape soFar => cases hs

/-- A layout by itself is read, once it is printed, as the forms that it yields. -/
theorem read_render (h : Yields l fs) : read l.render.toList = some fs := by
  obtain ⟨s', hread, hs'⟩ := h {} rfl
  have hrun := (run_print 0 {} hread fun howed => absurd rfl howed).1
  rw [Layout.render, String.toList_ofList, read, hrun, Option.bind_some, ← finish_settle, hs',
    finish_addAll]

theorem read_text {t : String} (h : Yields (.text t) fs) : read t.toList = some fs := by
  obtain ⟨s', hread, hs'⟩ := h {} rfl
  change (readLayout (.text t) {}).bind finish = _
  rw [hread, Option.bind_some, ← finish_settle, hs', finish_addAll]

/-! ### Lists -/

/-- A layout between parentheses. -/
def parens (l : Layout) : Layout := Layout.text "(" ++ l ++ Layout.text ")"

theorem Yields.parens (h : Yields l fs) : Yields (parens l) [.list fs] := by
  intro s hs
  have hopen : readLayout (.text "(") s = some s.opened := by
    obtain ⟨mode, level, outer⟩ := s
    obtain rfl : mode = .between := hs
    rfl
  obtain ⟨s', hread, hs'⟩ := h s.opened hs
  -- An atom may still be unfinished here, and the parenthesis finishes it.
  have hclose : readLayout (.text ")") s' = s'.settle.closed := by
    have hmode : s'.settle.mode = .between := by rw [hs', State.mode_addAll, State.mode_opened, hs]
    rw [← readLayout_settle (t := ")") rfl rfl s']
    generalize s'.settle = t at hmode
    obtain ⟨mode, level, outer⟩ := t
    obtain rfl : mode = .between := hmode
    exact Option.bind_fun_some _
  refine ⟨s.add (.list fs), ?_, State.settle_between hs⟩
  rw [Reader.parens, readLayout_append, readLayout_append, hopen, Option.bind_some, hread,
    Option.bind_some, hclose, hs', State.closed_opened]

/-- Layouts with blanks between them yield the form of each. -/
theorem Yields.join {sep : Layout} (hsep : Blank sep) {parts : List Layout} {forms : List Sexp}
    (h : YieldsEach parts forms) :
    Yields (Layout.join sep parts) forms := by
  induction h with
  | nil => exact Follows.empty.yields
  | @cons part form parts forms hpart hrest ih =>
    cases hrest with
    | nil => exact hpart
    | cons hnext hmore =>
      refine (Yields.append hpart (hsep.append ih)).congr fun s => ?_
      simp only [Layout.join, readLayout_append, Option.bind_assoc]
      rfl

/-- The same of texts, joined as texts. -/
theorem yields_intercalate {α : Type} {items : List α} {text : α → String} {form : α → Sexp}
    (h : ∀ item ∈ items, Yields (.text (text item)) [form item]) :
    Yields (.text (" ".intercalate (items.map text))) (items.map form) := by
  induction items with
  | nil => exact Follows.empty.yields.congr fun s => rfl
  | cons item items ih =>
    obtain ⟨hitem, hitems⟩ := List.forall_mem_cons.1 h
    cases items with
    | nil => exact hitem
    | cons next items =>
      refine (Yields.append hitem (blank_space.append (ih hitems))).congr fun s => ?_
      rw [List.map_cons, List.map_cons, String.intercalate_cons_cons, String.append_assoc,
        readLayout_append, readLayout_texts, readLayout_text_append]

/-- Layouts that each stand behind a line break yield the forms of each. -/
theorem Follows.lines {parts : List Layout} {groups : List (List Sexp)}
    (h : List.Forall₂ Yields parts groups) :
    Follows (Layout.concat (parts.flatMap fun part => [Layout.line, part])) groups.flatten := by
  induction h with
  | nil => exact Follows.empty
  | @cons part forms parts groups hpart hrest ih =>
    refine ((blank_line.append hpart).append ih).congr fun s => ?_
    simp only [List.flatMap_cons, List.cons_append, List.nil_append, Layout.concat,
      readLayout_append, Option.bind_assoc]
    rfl

theorem Follows.each_line {parts : List Layout} {forms : List Sexp}
    (h : YieldsEach parts forms) :
    Follows (Layout.concat (parts.flatMap fun part => [Layout.line, part])) forms := by
  have hlines := Follows.lines (List.forall₂_map_right_iff.2 h)
  rwa [← List.flatMap_def, List.flatMap_singleton'] at hlines

theorem yieldsEach_map {α : Type} {items : List α} {part : α → Layout} {form : α → Sexp}
    (h : ∀ item ∈ items, Yields (part item) [form item]) :
    YieldsEach (items.map part) (items.map form) := by
  rw [YieldsEach, List.forall₂_map_left_iff, List.forall₂_map_right_iff, List.forall₂_same]
  exact h

/-- If each layout is read as the tree of what it comes from, so are they in a row. -/
theorem yields_each {α ε : Type} {print : α → Except ε Layout} {tree : α → Option Sexp}
    {items : List α} {parts : List Layout} (h : items.mapM print = .ok parts)
    (hread : ∀ item ∈ items, ∀ part, print item = .ok part →
      ∃ t, tree item = some t ∧ Yields part [t]) :
    ∃ ts, items.mapM tree = some ts ∧ YieldsEach parts ts := by
  induction items generalizing parts with
  | nil =>
    obtain rfl := pure_eq_ok.1 h
    exact ⟨[], rfl, .nil⟩
  | cons item items ih =>
    rw [List.mapM_cons] at h
    obtain ⟨part, hpart, h⟩ := bind_eq_ok.1 h
    obtain ⟨rest, hrest, h⟩ := bind_eq_ok.1 h
    obtain rfl := pure_eq_ok.1 h
    obtain ⟨hfirst, hmore⟩ := List.forall_mem_cons.1 hread
    obtain ⟨t, ht, hyields⟩ := hfirst part hpart
    obtain ⟨ts, hts, hall⟩ := ih hrest hmore
    refine ⟨t :: ts, ?_, .cons hyields hall⟩
    rw [List.mapM_cons, ht, hts]
    rfl

end IdlGen.Lisp.Reader
