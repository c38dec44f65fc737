import IdlGen.Lisp.Record

/-!
# Layouts with open names

What is written in a program depends on the program in how names from other ones are spelled. A draft
is a layout in which such names are left open, as references, and every program fills in its own
spelling of them. A function from programs to layouts that has a draft can depend on the program in no
other way, and the references of the draft are all the names that it qualifies.
-/

namespace IdlGen.Lisp

/-- A declared name, together with the program that declares it. -/
structure Reference where
  name : String
  owner : Option ProgramInfo

/-- The spelling of a reference in a program. -/
def Reference.written (r : Reference) (current : ProgramInfo) : String :=
  qualify r.name r.owner current

def recordReference (d : Record) : Reference := ⟨Text.lowercase d.name, d.owner⟩

def serviceReference (s : Service) : Reference := ⟨s.name, s.owner⟩

/-! ### Drafts -/

inductive Piece where
  | fixed (text : String)
  | reference (r : Reference)

def Piece.written (current : ProgramInfo) : Piece → String
  | fixed text => text
  | reference r => r.written current

def spell (current : ProgramInfo) : List Piece → String
  | [] => ""
  | piece :: more => piece.written current ++ spell current more

/-- A layout whose texts leave names open. -/
inductive Draft where
  | empty
  | text (pieces : List Piece)
  | line
  | append (first second : Draft)
  | nest (width : Nat) (part : Draft)
  | align (part : Draft)

namespace Draft

/-- The layout that a program makes of a draft. -/
def fill (current : ProgramInfo) : Draft → Layout
  | empty => .empty
  | text pieces => .text (spell current pieces)
  | line => .line
  | append first second => .append (first.fill current) (second.fill current)
  | nest width part => .nest width (part.fill current)
  | align part => .align (part.fill current)

def Mentions (r : Reference) : Draft → Prop
  | empty => False
  | text pieces => .reference r ∈ pieces
  | line => False
  | append first second => first.Mentions r ∨ second.Mentions r
  | nest _ part => part.Mentions r
  | align part => part.Mentions r

end Draft

theorem spell_append (current : ProgramInfo) (a b : List Piece) :
    spell current (a ++ b) = spell current a ++ spell current b := by
  induction a with
  | nil => rw [List.nil_append, spell, String.empty_append]
  | cons piece a ih => rw [List.cons_append, spell, spell, ih, String.append_assoc]

/-! ### What has a draft -/

variable {P : Reference → Prop}

/-- A text that is the same in every program up to the spelling of references, which are all such. -/
def OpenText (P : Reference → Prop) (write : ProgramInfo → String) : Prop :=
  ∃ pieces : List Piece, write = (fun current => spell current pieces) ∧
    ∀ r, .reference r ∈ pieces → P r

/-- A layout that has a draft with no references but such. -/
def OpenLayout (P : Reference → Prop) (write : ProgramInfo → Layout) : Prop :=
  ∃ draft : Draft, write = (fun current => draft.fill current) ∧ ∀ r, draft.Mentions r → P r

def OpenLayouts (P : Reference → Prop) (write : ProgramInfo → List Layout) : Prop :=
  ∃ drafts : List Draft, write = (fun current => drafts.map (Draft.fill current)) ∧
    ∀ draft ∈ drafts, ∀ r, draft.Mentions r → P r

namespace OpenText

variable {a b : ProgramInfo → String}

theorem piece (p : Piece) (h : ∀ r, p = .reference r → P r) :
    OpenText P fun current => p.written current := by
  refine ⟨[p], funext fun current => (String.append_empty).symm, ?_⟩
  intro r hr
  exact h r (List.mem_singleton.1 hr).symm

theorem fixed (text : String) : OpenText P fun _ => text := piece (.fixed text) nofun

theorem reference {r : Reference} (hr : P r) : OpenText P r.written := by
  refine piece (.reference r) ?_
  rintro r' ⟨⟩
  exact hr

theorem append (ha : OpenText P a) (hb : OpenText P b) :
    OpenText P fun current => a current ++ b current := by
  obtain ⟨pieces, rfl, hrefs⟩ := ha
  obtain ⟨more, rfl, hmore⟩ := hb
  refine ⟨pieces ++ more, funext fun current => (spell_append current pieces more).symm, ?_⟩
  intro r hr
  exact (List.mem_append.1 hr).elim (hrefs r) (hmore r)

/-- A name as a symbol. -/
theorem symbol (ha : OpenText P a) : OpenText P fun current => Lisp.symbol (a current) :=
  fixed "\"" |>.append ha |>.append (fixed "\"")

theorem intercalate {α : Type} {items : List α} {write : ProgramInfo → α → String}
    (h : ∀ item ∈ items, OpenText P fun current => write current item) :
    OpenText P fun current => " ".intercalate (items.map (write current)) := by
  induction items with
  | nil => exact fixed ""
  | cons item items ih =>
    obtain ⟨hitem, hitems⟩ := List.forall_mem_cons.1 h
    cases items with
    | nil => exact hitem
    | cons next items =>
      have hboth := hitem.append (fixed " ") |>.append (ih hitems)
      simpa only [List.map_cons, String.intercalate_cons_cons] using hboth

end OpenText

namespace OpenLayout

variable {a b : ProgramInfo → Layout}

theorem draft (d : Draft) (h : ∀ r, d.Mentions r → P r) : OpenLayout P fun current => d.fill current :=
  ⟨d, rfl, h⟩

theorem text {t : ProgramInfo → String} (h : OpenText P t) :
    OpenLayout P fun current => .text (t current) := by
  obtain ⟨pieces, rfl, hrefs⟩ := h
  exact draft (.text pieces) hrefs

theorem append (ha : OpenLayout P a) (hb : OpenLayout P b) :
    OpenLayout P fun current => a current ++ b current := by
  obtain ⟨first, rfl, hfirst⟩ := ha
  obtain ⟨second, rfl, hsecond⟩ := hb
  exact draft (.append first second) fun r hr => hr.elim (hfirst r) (hsecond r)

theorem nest (width : Nat) (ha : OpenLayout P a) :
    OpenLayout P fun current => (a current).nest width := by
  obtain ⟨part, rfl, hpart⟩ := ha
  exact draft (.nest width part) hpart

theorem indent (ha : OpenLayout P a) : OpenLayout P fun current => (a current).indent := ha.nest 2

theorem align (ha : OpenLayout P a) : OpenLayout P fun current => (a current).align := by
  obtain ⟨part, rfl, hpart⟩ := ha
  exact draft (.align part) hpart

theorem fixed (l : Layout) : OpenLayout P fun _ => l := by
  induction l with
  | empty => exact draft .empty nofun
  | text t => exact text (.fixed t)
  | line => exact draft .line nofun
  | append first second ihFirst ihSecond => exact ihFirst.append ihSecond
  | nest width part ih => exact ih.nest width
  | align part ih => exact ih.align

end OpenLayout

namespace OpenLayouts

variable {parts : ProgramInfo → List Layout}

/-- Layouts, each behind a line break. -/
theorem each_line (h : OpenLayouts P parts) :
    OpenLayout P fun current =>
      Layout.concat ((parts current).flatMap fun part => [Layout.line, part]) := by
  obtain ⟨drafts, rfl, hdrafts⟩ := h
  induction drafts with
  | nil => exact .fixed .empty
  | cons draft drafts ih =>
    obtain ⟨hdraft, hmore⟩ := List.forall_mem_cons.1 hdrafts
    exact (OpenLayout.fixed .line).append ((OpenLayout.draft draft hdraft).append (ih hmore))

theorem join_line (h : OpenLayouts P parts) :
    OpenLayout P fun current => Layout.join .line (parts current) := by
  obtain ⟨drafts, rfl, hdrafts⟩ := h
  induction drafts with
  | nil => exact .fixed .empty
  | cons draft drafts ih =>
    obtain ⟨hdraft, hmore⟩ := List.forall_mem_cons.1 hdrafts
    cases drafts with
    | nil => exact .draft draft hdraft
    | cons next drafts =>
      exact OpenLayout.draft draft hdraft |>.append (.fixed .line) |>.append (ih hmore)

theorem aligned (h : OpenLayouts P parts) :
    OpenLayout P fun current => Lisp.aligned (parts current) :=
  OpenLayout.fixed (.text "(") |>.append h.join_line.align |>.append (.fixed (.text ")"))

theorem composite {head : ProgramInfo → String} (hhead : OpenText P head)
    (h : OpenLayouts P parts) :
    OpenLayout P fun current => Lisp.composite (head current) (parts current) :=
  OpenLayout.fixed (.text "(") |>.append (.text hhead) |>.append h.each_line.indent
    |>.append (.fixed (.text ")"))

end OpenLayouts

/-! ### Steps that every program takes alike -/

variable {α β : Type}

/-- Every program gets a result, and as a function of the program it is such; or the step fails for
all of them with one error. -/
inductive Uniform (Q : (ProgramInfo → β) → Prop) (write : ProgramInfo → Except EmitError β) : Prop
  | ok {result : ProgramInfo → β} (h : ∀ current, write current = .ok (result current))
      (hresult : Q result) : Uniform Q write
  | error (e : EmitError) (h : ∀ current, write current = .error e) : Uniform Q write

namespace Uniform

variable {Q : (ProgramInfo → α) → Prop} {R : (ProgramInfo → β) → Prop}
  {write : ProgramInfo → Except EmitError α}

theorem fixed (step : Except EmitError Layout) : Uniform (OpenLayout P) fun _ => step := by
  cases step with
  | ok l => exact .ok (fun _ => rfl) (.fixed l)
  | error e => exact .error e fun _ => rfl

theorem bind {next : ProgramInfo → α → Except EmitError β} (h : Uniform Q write)
    (hnext : ∀ result, Q result → Uniform R fun current => next current (result current)) :
    Uniform R fun current => write current >>= next current := by
  cases h with
  | ok h hresult =>
    simp only [h]
    exact hnext _ hresult
  | error e h =>
    simp only [h]
    exact .error e fun _ => rfl

theorem map {next : ProgramInfo → α → β} (h : Uniform Q write)
    (hnext : ∀ result, Q result → R fun current => next current (result current)) :
    Uniform R fun current => (write current).map (next current) := by
  cases h with
  | ok h hresult => exact .ok (fun current => by rw [h]; rfl) (hnext _ hresult)
  | error e h => exact .error e fun current => by rw [h]; rfl

theorem mapM {items : List α} {write : ProgramInfo → α → Except EmitError Layout}
    (h : ∀ item ∈ items, Uniform (OpenLayout P) fun current => write current item) :
    Uniform (OpenLayouts P) fun current => items.mapM (write current) := by
  induction items with
  | nil => exact .ok (fun _ => rfl) ⟨[], rfl, nofun⟩
  | cons item items ih =>
    obtain ⟨hitem, hitems⟩ := List.forall_mem_cons.1 h
    simp only [List.mapM_cons]
    refine hitem.bind fun first hfirst => (ih hitems).bind fun rest hrest => ?_
    obtain ⟨draft, rfl, hdraft⟩ := hfirst
    obtain ⟨drafts, rfl, hdrafts⟩ := hrest
    exact .ok (fun _ => rfl) ⟨draft :: drafts, rfl, List.forall_mem_cons.2 ⟨hdraft, hdrafts⟩⟩

end Uniform

end IdlGen.Lisp
