import IdlGen.Proofs.Layout.Lines
import IdlGen.Proofs.Lisp.Conformance
import IdlGen.Proofs.Lisp.LiteralReading
import IdlGen.Proofs.Lisp.OneLine

/-!
# The lines of a constant

Every entry of a list, set, map or record in a literal begins a line of its own, which is indented by two
columns for each composite around the entry. This holds of the entries in keys as of those in values, and an
empty composite adds no line. Names and strings are taken to be on one line each, since the breaks in them
would be lines that no entry begins.

The entries of a literal are listed in the order of the text, each with the number of composites around it.
What is shown of a literal does not depend on where it stands: it opens with some text, and its line breaks
begin the lines of these entries (`Sheet`).
-/

namespace IdlGen

namespace Literal

/-- An entry of a composite literal, with what its parts are written by. -/
inductive Entry where
  | item (element : Ty) (v : Literal)
  | pair (keyType valueType : Ty) (entry : Literal × Literal)
  | assignment (d : Record) (entry : Literal × Literal)

mutual

/-- The entries of all composites in a literal of some type, each in front of the entries in its parts,
with the number of composites around it. The literal itself is in `k` composites. -/
def entries (t : Ty) (k : Nat) : Literal → List (Nat × Entry)
  | list items =>
    match t.trueType with
    | .list element | .set element => itemEntries element (k + 1) items
    | _ => []
  | map pairs =>
    match t.trueType with
    | .map key value => pairEntries key value (k + 1) pairs
    | .record _ d => assignmentEntries d (k + 1) pairs
    | _ => []
  | integer _ | double _ | string _ => []

def itemEntries (element : Ty) (k : Nat) : List Literal → List (Nat × Entry)
  | [] => []
  | item :: more => (k, .item element item) :: item.entries element k ++ itemEntries element k more

def pairEntries (key value : Ty) (k : Nat) : List (Literal × Literal) → List (Nat × Entry)
  | [] => []
  | (a, v) :: more =>
    (k, .pair key value (a, v)) :: (a.entries key k ++ v.entries value k) ++
      pairEntries key value k more

def assignmentEntries (d : Record) (k : Nat) : List (Literal × Literal) → List (Nat × Entry)
  | [] => []
  | (a, v) :: more =>
    (k, .assignment d (a, v)) ::
      (match a.string?.bind d.fieldNamed? with
        | some f => v.entries f.type k
        | none => []) ++ assignmentEntries d k more

end

mutual

/-- How many entries all composites in a literal have together. -/
def entryCount : Literal → Nat
  | list items => itemCount items
  | map pairs => pairCount pairs
  | integer _ | double _ | string _ => 0

def itemCount : List Literal → Nat
  | [] => 0
  | item :: more => item.entryCount + 1 + itemCount more

def pairCount : List (Literal × Literal) → Nat
  | [] => 0
  | (a, v) :: more => a.entryCount + v.entryCount + 1 + pairCount more

end

namespace Entry

/-- The entries in the parts of an entry. -/
def inner (k : Nat) : Entry → List (Nat × Entry)
  | item element v => v.entries element k
  | pair key value (a, v) => a.entries key k ++ v.entries value k
  | assignment d (a, v) =>
    match a.string?.bind d.fieldNamed? with
    | some f => v.entries f.type k
    | none => []

def innerCount : Entry → Nat
  | item _ v => v.entryCount
  | pair _ _ (a, v) | assignment _ (a, v) => a.entryCount + v.entryCount

/-- An entry and those in its parts. -/
def preorder (k : Nat) (entry : Entry) : List (Nat × Entry) := (k, entry) :: entry.inner k

/-- How many these are with the entries in their parts. -/
def count : List Entry → Nat
  | [] => 0
  | entry :: more => entry.innerCount + 1 + count more

end Entry

theorem itemEntries_eq (element : Ty) (k : Nat) (items : List Literal) :
    itemEntries element k items = (items.map (.item element)).flatMap (Entry.preorder k) := by
  induction items with
  | nil => rfl
  | cons item items ih => rw [itemEntries, ih]; rfl

theorem pairEntries_eq (key value : Ty) (k : Nat) (pairs : List (Literal × Literal)) :
    pairEntries key value k pairs = (pairs.map (.pair key value)).flatMap (Entry.preorder k) := by
  induction pairs with
  | nil => rfl
  | cons pair pairs ih => rw [pairEntries, ih]; rfl

theorem assignmentEntries_eq (d : Record) (k : Nat) (pairs : List (Literal × Literal)) :
    assignmentEntries d k pairs = (pairs.map (.assignment d)).flatMap (Entry.preorder k) := by
  induction pairs with
  | nil => rfl
  | cons pair pairs ih => rw [assignmentEntries, ih]; rfl

theorem itemCount_eq (element : Ty) (items : List Literal) :
    itemCount items = Entry.count (items.map (.item element)) := by
  induction items with
  | nil => rfl
  | cons item items ih => rw [itemCount, ih]; rfl

theorem pairCount_eq (entry : Literal × Literal → Entry)
    (hentry : ∀ p, (entry p).innerCount = p.1.entryCount + p.2.entryCount)
    (pairs : List (Literal × Literal)) :
    pairCount pairs = Entry.count (pairs.map entry) := by
  induction pairs with
  | nil => rfl
  | cons pair pairs ih => rw [pairCount, ih, List.map_cons, Entry.count, hentry]

end Literal

namespace Lisp

open Layout Literal Reader

variable (current : ProgramInfo)

/-- The layout of an entry by itself. -/
def entryLayout : Entry → Except EmitError Layout
  | .item element v => literal current element v
  | .pair key value entry => pair current key value entry
  | .assignment d entry => assignment current d entry

/-- The text with which an entry begins: its own up to the first line break, and no blank in front. -/
def Heads (entry : Entry) (text : List Char) : Prop :=
  ∃ l first more, entryLayout current entry = .ok l ∧ firstLine l.render.toList = first :: more ∧
    first ≠ ' ' ∧ text = first :: more

/-- In a literal within `k` composites, the row belongs to an entry. -/
def HeadsRow (k : Nat) (placed : Nat × Entry) (row : Row) : Prop :=
  2 * placed.1 = 2 * k + row.indent ∧ Heads current placed.2 row.text

/-- A part that opens with something other than a blank, and of which each line break begins the line of an
entry. -/
def Sheet (l : Layout) (entries : Nat → List (Nat × Entry)) (count : Nat) : Prop :=
  ∃ first more rows, first ≠ ' ' ∧ Opens l (first :: more) rows ∧ rows.length = count ∧
    ∀ k, List.Forall₂ (HeadsRow current k) (entries k) rows

/-- The layout of an entry, with a line for each entry in its parts. -/
def SheetOf (entry : Entry) (l : Layout) : Prop :=
  entryLayout current entry = .ok l ∧
    Sheet current l (fun k => entry.inner k) entry.innerCount

variable {current}

/-! ### Parts with a line for each entry -/

theorem opens_text {t : String} {first : Char} {more : List Char} (ht : t.toList = first :: more)
    (hline : OneLine t) : Opens (.text t) (first :: more) [] := by
  rw [← ht]
  exact Opens.text (by rintro rfl; cases ht) hline

namespace Sheet

variable {a b l : Layout} {as bs : Nat → List (Nat × Entry)} {m n : Nat}

theorem text {t : String} {first : Char} {more : List Char} (ht : t.toList = first :: more)
    (hfirst : first ≠ ' ') (hline : OneLine t) : Sheet current (.text t) (fun _ => []) 0 :=
  ⟨first, more, [], hfirst, opens_text ht hline, rfl, fun _ => .nil⟩

/-- Text in front takes the place of the opening. -/
theorem behind {t : String} {first : Char} {more : List Char} (ht : t.toList = first :: more)
    (hfirst : first ≠ ' ') (hline : OneLine t) (h : Sheet current l as n) :
    Sheet current (.text t ++ l) as n := by
  obtain ⟨first', more', rows, -, hopens, hcount, hrows⟩ := h
  exact ⟨first, more ++ first' :: more', rows, hfirst, (opens_text ht hline).append_line hopens,
    hcount, hrows⟩

theorem append_text (h : Sheet current l as n) {t : String} (hne : t ≠ "") (hline : OneLine t) :
    Sheet current (l ++ .text t) as n := by
  obtain ⟨first, more, rows, hfirst, hopens, hcount, hrows⟩ := h
  have hboth := hopens.append (Opens.text hne hline)
  rw [List.append_nil] at hboth
  split at hboth
  · exact ⟨first, more ++ t.toList, rows, hfirst, hboth, hcount, hrows⟩
  · exact ⟨first, more, rows, hfirst, hboth, hcount, hrows⟩

theorem append (ha : Sheet current a as m) (hb : Sheet current b bs n) :
    Sheet current (a ++ b) (fun k => as k ++ bs k) (m + n) := by
  obtain ⟨first, more, rows, hfirst, hopens, hcount, hrows⟩ := ha
  obtain ⟨first', more', rows', -, hopens', hcount', hrows'⟩ := hb
  have hlength : (rows ++ rows').length = m + n := by rw [List.length_append, hcount, hcount']
  have hheads : ∀ k, List.Forall₂ (HeadsRow current k) (as k ++ bs k) (rows ++ rows') :=
    fun k => List.rel_append (hrows k) (hrows' k)
  have hboth := hopens.append hopens'
  split at hboth
  · exact ⟨first, more ++ first' :: more', _, hfirst, hboth, hlength, hheads⟩
  · exact ⟨first, more, _, hfirst, hboth, hlength, hheads⟩

/-- By itself, the part has a line for each entry. -/
theorem heads (h : Sheet current l as n) {entry : Entry} (hentry : entryLayout current entry = .ok l) :
    ∃ rows text, Opens l text rows ∧ Heads current entry text ∧ rows.length = n ∧
      ∀ k, List.Forall₂ (HeadsRow current k) (as k) rows := by
  obtain ⟨first, more, rows, hfirst, hopens, hcount, hrows⟩ := h
  exact ⟨rows, first :: more, hopens,
    ⟨l, first, more, hentry, hopens.firstLine_render, hfirst, rfl⟩, hcount, hrows⟩

end Sheet

/-- Deeper by one composite, rows belong to entries that are in one more composite. -/
theorem HeadsRow.deeper {k : Nat} {placed : Nat × Entry} {row : Row}
    (h : HeadsRow current (k + 1) placed row) : HeadsRow current k placed (row.deeper 2) := by
  obtain ⟨hdepth, hheads⟩ := h
  refine ⟨?_, hheads⟩
  dsimp only [Row.deeper]
  omega

/-! ### Composites -/

/-- Entries behind line breaks, each with those in its parts. -/
theorem breaks_entries {entries : List Entry} {parts : List Layout}
    (h : List.Forall₂ (SheetOf current) entries parts) :
    ∃ rows, Breaks (Layout.concat (parts.flatMap fun part => [Layout.line, part])) rows ∧
      rows.length = Entry.count entries ∧
      ∀ k, List.Forall₂ (HeadsRow current k) (entries.flatMap (Entry.preorder k)) rows := by
  induction h with
  | nil => exact ⟨[], .empty, rfl, fun _ => .nil⟩
  | @cons entry part entries parts hpart hrest ih =>
    obtain ⟨hlayout, hsheet⟩ := hpart
    obtain ⟨inner, text, hopens, htext, hcount, hinner⟩ := hsheet.heads hlayout
    obtain ⟨more, hbreaks, hmoreCount, hmore⟩ := ih
    refine ⟨⟨0, text⟩ :: inner ++ more, .line hopens hbreaks, ?_, fun k => ?_⟩
    · rw [List.cons_append, List.length_cons, List.length_append, hcount, hmoreCount, Entry.count]
      omega
    · exact List.rel_append (.cons ⟨rfl, htext⟩ (hinner k)) (hmore k)

theorem sheet_composite {head : String} (hne : head ≠ "") (hline : OneLine head)
    {entries : List Entry} {parts : List Layout} (h : List.Forall₂ (SheetOf current) entries parts) :
    Sheet current (composite head parts) (fun k => entries.flatMap (Entry.preorder (k + 1)))
      (Entry.count entries) := by
  obtain ⟨rows, hbreaks, hcount, hrows⟩ := breaks_entries h
  have hhead : Opens (Layout.text "(" ++ Layout.text head) ('(' :: head.toList) [] :=
    (Opens.text (by decide) (by decide)).append_line (Opens.text hne hline)
  refine Sheet.append_text ⟨'(', head.toList, _, by decide,
    hhead.append_breaks hbreaks.indent, ?_, fun k => ?_⟩ (by decide) (by decide)
  · rw [List.nil_append, List.length_map, hcount]
  · exact List.forall₂_map_right_iff.2 ((hrows (k + 1)).imp fun _ _ hrow => hrow.deeper)

/-! ### Leaves -/

theorem sheet_atomic {t : String} (h : Atomic t) : Sheet current (.text t) (fun _ => []) 0 := by
  cases ht : t.toList with
  | nil => exact absurd (String.toList_eq_nil_iff.1 ht) h.1
  | cons first more =>
    refine .text ht ?_ (oneLine_of_atomic h)
    rintro rfl
    have hall := h.2
    rw [ht] at hall
    exact absurd (List.all_eq_true.1 hall _ List.mem_cons_self) (by decide)

theorem sheet_quote {s : String} (h : OneLine s) :
    Sheet current (.text (quote s)) (fun _ => []) 0 :=
  .text String.toList_ofList (by decide) (oneLine_quote h)

theorem sheet_baseText {b : BaseType} {v : Literal} {text : String} (h : baseText b v = .ok text)
    (hv : v.OneLineStrings) : Sheet current (.text text) (fun _ => []) 0 := by
  unfold baseText at h
  split at h
  case h_1 | h_10 => cases h
  case h_2 s =>
    obtain rfl := Except.ok.inj h
    cases hv with
    | string hs => exact sheet_quote hs
  case h_3 n =>
    obtain rfl := Except.ok.inj h
    exact sheet_atomic (by split <;> decide)
  case h_4 | h_5 | h_6 | h_7 | h_8 =>
    obtain rfl := Except.ok.inj h
    exact sheet_atomic (atomic_integerText _)
  case h_9 x =>
    split at h
    · obtain rfl := Except.ok.inj h
      exact sheet_atomic (atomic_double x)
    · cases h

/-! ### Literals -/

/-- What has to be shown of a literal: there is a line for each of its entries. -/
def Sheeted (current : ProgramInfo) (v : Literal) : Prop :=
  ∀ {t : Ty} {l : Layout}, literal current t v = .ok l → t.OneLineRecords → v.OneLineStrings →
    Sheet current l (fun k => v.entries t k) v.entryCount

theorem sheetOf_pair {key value : Ty} {entry : Literal × Literal} {l : Layout}
    (hkey : key.OneLineRecords) (hvalue : value.OneLineRecords)
    (hstrings : entry.1.OneLineStrings ∧ entry.2.OneLineStrings)
    (ih : Sheeted current entry.1 ∧ Sheeted current entry.2)
    (h : pair current key value entry = .ok l) : SheetOf current (.pair key value entry) l := by
  refine ⟨h, ?_⟩
  obtain ⟨k, hk, h⟩ := bind_eq_ok.1 h
  obtain ⟨v, hv, h⟩ := bind_eq_ok.1 h
  obtain rfl := pure_eq_ok.1 h
  have hfront := (ih.1 hk hkey hstrings.1).behind (t := "(cl:cons ") rfl (by decide) (by decide)
  exact ((hfront.append_text (t := " ") (by decide) (by decide)).append
    (ih.2 hv hvalue hstrings.2)).append_text (by decide) (by decide)

theorem sheetOf_assignment {kind : RecordKind} {d : Record} {entry : Literal × Literal} {l : Layout}
    (hd : (Ty.record kind d).OneLineRecords)
    (hstrings : entry.1.OneLineStrings ∧ entry.2.OneLineStrings) (ih : Sheeted current entry.2)
    (h : assignment current d entry = .ok l) : SheetOf current (.assignment d entry) l := by
  refine ⟨h, ?_⟩
  obtain ⟨a, v⟩ := entry
  obtain ⟨f, hf, h⟩ := bind_eq_ok.1 h
  obtain ⟨part, hpart, h⟩ := bind_eq_ok.1 h
  obtain rfl := pure_eq_ok.1 h
  obtain ⟨rfl, hfound⟩ := fieldOfKey_eq_ok hf
  have hname : OneLine f.name := by
    cases hstrings.1 with
    | string hs => exact hs
  have hvalue := ih hpart (hd.of_mentions (.field (List.mem_of_find?_eq_some hfound))) hstrings.2
  have hfront : (":" ++ f.name ++ " ").toList = ':' :: (f.name ++ " ").toList := by
    simp only [String.toList_append, List.append_assoc]
    rfl
  have hline : OneLine (":" ++ f.name ++ " ") :=
    (OneLine.append (by decide) hname).append (by decide)
  have hsheet := hvalue.behind hfront (by decide) hline
  simpa only [Entry.inner, Entry.innerCount, Literal.string?, Option.bind_some, hfound, entryCount,
    Nat.zero_add] using hsheet

/-- Things that are written as entries, each with a line for every entry in its parts. -/
theorem forall_sheetOf {α : Type} {entry : α → Entry} {write : α → Except EmitError Layout}
    {as : List α} {parts : List Layout} (hparts : as.mapM write = .ok parts)
    (h : ∀ a ∈ as, ∀ part, write a = .ok part → SheetOf current (entry a) part) :
    List.Forall₂ (SheetOf current) (as.map entry) parts := by
  have hboth := (List.forall₂_and_left _ _).2 ⟨h, mapM_eq_ok.1 hparts⟩
  exact List.forall₂_map_left_iff.2 (hboth.imp fun a part hpart => hpart.1 part hpart.2)

theorem sheeted_list {items : List Literal} (ih : ∀ item ∈ items, Sheeted current item) :
    Sheeted current (.list items) := by
  intro t l h ht hv
  rw [literal] at h
  have htrue := ht.trueType
  cases hv with
  | list hstrings =>
    cases hshape : t.trueType with
    | list element | set element =>
      simp only [hshape] at h htrue
      obtain ⟨parts, hparts, rfl⟩ := map_eq_ok.1 h
      have helement : element.OneLineRecords := htrue.of_mentions (by first | exact .list | exact .set)
      rw [literals_eq_mapM] at hparts
      have hsheets : List.Forall₂ (SheetOf current) (items.map (.item element)) parts :=
        forall_sheetOf hparts fun item hitem part hpart =>
          ⟨hpart, ih item hitem hpart helement (hstrings item hitem)⟩
      simp only [Literal.entries, hshape, itemEntries_eq, entryCount, itemCount_eq element]
      exact sheet_composite (by decide) (by decide) hsheets
    | base b =>
      simp only [hshape] at h
      cases b <;> cases h
    | enum d | record kind d | map key value | typedef d =>
      simp only [hshape] at h
      cases h

theorem sheeted_map {entries : List (Literal × Literal)}
    (ih : ∀ entry ∈ entries, Sheeted current entry.1 ∧ Sheeted current entry.2) :
    Sheeted current (.map entries) := by
  intro t l h ht hv
  rw [literal] at h
  have htrue := ht.trueType
  cases hv with
  | map hkeys hvalues =>
    cases hshape : t.trueType with
    | map key value =>
      simp only [hshape] at h htrue
      obtain ⟨parts, hparts, rfl⟩ := map_eq_ok.1 h
      rw [pairs_eq_mapM] at hparts
      have hsheets : List.Forall₂ (SheetOf current) (entries.map (.pair key value)) parts :=
        forall_sheetOf hparts fun entry hentry part hpart =>
          sheetOf_pair (htrue.of_mentions .key) (htrue.of_mentions .value)
            ⟨hkeys entry hentry, hvalues entry hentry⟩ (ih entry hentry) hpart
      simp only [Literal.entries, hshape, pairEntries_eq, entryCount,
        pairCount_eq (.pair key value) fun _ => rfl]
      exact sheet_composite (by decide) (by decide) hsheets
    | record kind d =>
      simp only [hshape] at h htrue
      obtain ⟨parts, hparts, rfl⟩ := map_eq_ok.1 h
      rw [assignments_eq_mapM] at hparts
      have hsheets : List.Forall₂ (SheetOf current) (entries.map (.assignment d)) parts :=
        forall_sheetOf hparts fun entry hentry part hpart =>
          sheetOf_assignment htrue ⟨hkeys entry hentry, hvalues entry hentry⟩ (ih entry hentry).2
            hpart
      have hline : OneLine (constructor kind ++ " '" ++ recordName d current) :=
        OneLine.append (by cases kind <;> decide) (oneLine_recordName (htrue kind d (.self _)) current)
      have hne : constructor kind ++ " '" ++ recordName d current ≠ "" := by
        cases kind <;> simp [constructor]
      simp only [Literal.entries, hshape, assignmentEntries_eq, entryCount,
        pairCount_eq (.assignment d) fun _ => rfl]
      exact sheet_composite hne hline hsheets
    | base b =>
      simp only [hshape] at h
      cases b <;> cases h
    | enum d | list element | set element | typedef d =>
      simp only [hshape] at h
      cases h

theorem sheeted (v : Literal) : Sheeted current v := by
  induction v with
  | list items ih => exact sheeted_list ih
  | map entries ih => exact sheeted_map ih
  | integer n =>
    intro t l h _ hv
    rw [literal] at h
    cases hshape : t.trueType with
    | base b =>
      simp only [hshape] at h
      obtain ⟨text, htext, rfl⟩ := map_eq_ok.1 h
      exact sheet_baseText htext hv
    | enum d =>
      simp only [hshape] at h
      obtain rfl := Except.ok.inj h
      exact sheet_atomic (atomic_integerText _)
    | record kind d | list element | set element | map key value | typedef d =>
      simp only [hshape] at h
      cases h
  | double x | string s =>
    intro t l h _ hv
    rw [literal] at h
    cases hshape : t.trueType with
    | base b =>
      simp only [hshape] at h
      obtain ⟨text, htext, rfl⟩ := map_eq_ok.1 h
      exact sheet_baseText htext hv
    | enum d | record kind d | list element | set element | map key value | typedef d =>
      simp only [hshape] at h
      cases h

/-! ### Constants -/

/-- The line of an entry: two blanks for each composite around it, and then the text with which it begins by
itself. -/
def OnLine (current : ProgramInfo) (placed : Nat × Entry) (line : List Char) : Prop :=
  ∃ text rest, Heads current placed.2 text ∧
    line = List.replicate (2 * placed.1) ' ' ++ text ++ rest

theorem Sheet.lines {l : Layout} {as : Nat → List (Nat × Entry)} {n : Nat}
    (h : Sheet current l as n) :
    (l.render.toList.splitOn '\n').length = 1 + n ∧
      List.Forall₂ (OnLine current) (as 0) (l.render.toList.splitOn '\n').tail := by
  obtain ⟨first, more, rows, -, hopens, hcount, hrows⟩ := h
  obtain ⟨lines, hlines, hbegin⟩ := hopens.lines
  rw [hlines, List.tail_cons]
  refine ⟨?_, forall₂_comp (hrows 0) hbegin ?_⟩
  · rw [List.length_cons, ← hbegin.length_eq, hcount, Nat.add_comm]
  · rintro placed row line ⟨hdepth, hheads⟩ ⟨rest, rfl⟩
    refine ⟨row.text, rest, hheads, ?_⟩
    rw [hdepth, Nat.mul_zero, Nat.zero_add]

/-- Behind its first line, a constant has one line for each entry of the composites in its value, however
they are nested in keys and values. The lines stand in the order of the entries, and each is indented by two
columns for every composite around its entry and goes on with something other than a blank. -/
theorem constantForm_lines {c : Constant} {l : Layout} (h : constantForm current c = .ok l)
    (hc : c.OneLineTexts) :
    (l.render.toList.splitOn '\n').length = 1 + c.value.entryCount ∧
      List.Forall₂ (OnLine current) (c.value.entries c.type 0)
        (l.render.toList.splitOn '\n').tail := by
  obtain ⟨value, hvalue, h⟩ := bind_eq_ok.1 h
  obtain rfl := pure_eq_ok.1 h
  have hfront : ("(thrift:def-constant " ++ symbol c.name ++ " ").toList =
      '(' :: ("thrift:def-constant " ++ symbol c.name ++ " ").toList := by
    simp only [String.toList_append, List.append_assoc]
    rfl
  have hline : OneLine ("(thrift:def-constant " ++ symbol c.name ++ " ") :=
    (OneLine.append (by decide) (oneLine_symbol hc.name)).append (by decide)
  have hsheet := (sheeted c.value hvalue hc.records hc.strings).behind hfront (by decide) hline
  exact (hsheet.append_text (by decide) (by decide)).lines

/-- A map with lists for keys, one of them empty, and records of another package for values, which hold lists
themselves. -/
theorem constantForm_lines_folders :
    let current : ProgramInfo := { name := "main" }
    let folder : Record :=
      ⟨"Folder", some (({ name := "shared" } : ProgramInfo).withNamespace "cl" "shared.idl"),
        [⟨1, "names", .list (.base .string), none, none⟩, ⟨2, "open", .base .bool, none, none⟩],
        none⟩
    let c : Constant :=
      { name := "folders"
        type := .map (.list (.base .i32)) (.record .struct folder)
        value := .map
          [(.list [.integer 5, .integer (-7)],
            .map [(.string "names", .list []), (.string "open", .integer 1)]),
          (.list [], .map [(.string "names", .list [.string "a b"])])] }
    ∃ l, constantForm current c = .ok l ∧ c.OneLineTexts ∧
      l.render = "(thrift:def-constant \"folders\" (thrift:map\n" ++
        "  (cl:cons (thrift:list\n" ++
        "    5\n" ++
        "    -7) (make-instance 'shared.idl:folder\n" ++
        "    :names (thrift:list)\n" ++
        "    :open t))\n" ++
        "  (cl:cons (thrift:list) (make-instance 'shared.idl:folder\n" ++
        "    :names (thrift:list\n" ++
        "      \"a b\")))))" ∧
      (l.render.toList.splitOn '\n').length = 1 + 8 ∧
      (c.value.entries c.type 0).map Prod.fst = [1, 2, 2, 2, 2, 1, 2, 3] ∧
      List.Forall₂ (OnLine current) (c.value.entries c.type 0)
        (l.render.toList.splitOn '\n').tail := by
  intro current folder c
  have hfolder : folder.OneLineName := by
    refine ⟨by decide, ?_⟩
    rintro info ⟨⟩ package hpackage
    obtain rfl := Option.some.inj hpackage
    decide
  have hrecords : c.type.OneLineRecords := by
    intro kind d hd
    cases hd with
    | key hkey =>
      cases hkey with
      | list helement => cases helement
    | value hvalue =>
      cases hvalue with
      | self => exact hfolder
      | field hf hfield =>
        simp only [folder, List.mem_cons, List.not_mem_nil, or_false] at hf
        rcases hf with rfl | rfl
        · cases hfield with
          | list helement => cases helement
        · cases hfield
  have hstrings : c.value.OneLineStrings := by
    have hnames : (Literal.string "names").OneLineStrings := .string (by decide)
    have hopen : (Literal.string "open").OneLineStrings := .string (by decide)
    have hempty : (Literal.list []).OneLineStrings := .list nofun
    have hfirst : (Literal.map [(.string "names", .list []),
        (.string "open", .integer 1)]).OneLineStrings :=
      .map (by simpa using ⟨hnames, hopen⟩) (by simpa using ⟨hempty, .integer 1⟩)
    have hsecond : (Literal.map [(.string "names", .list [.string "a b"])]).OneLineStrings :=
      .map (by simpa using hnames)
        (by simpa using Literal.OneLineStrings.list (by simpa using .string (by decide)))
    have hnumbers : (Literal.list [.integer 5, .integer (-7)]).OneLineStrings :=
      .list (by simpa using ⟨.integer 5, .integer (-7)⟩)
    exact .map (by simpa using ⟨hnumbers, hempty⟩) (by simpa using ⟨hfirst, hsecond⟩)
  have hc : c.OneLineTexts := ⟨by decide, hrecords, hstrings⟩
  have hform : ∃ l, constantForm current c = .ok l := ⟨_, rfl⟩
  obtain ⟨l, hl⟩ := hform
  obtain ⟨hlength, hlines⟩ := constantForm_lines hl hc
  refine ⟨l, hl, hc, ?_, hlength, rfl, hlines⟩
  obtain rfl := Except.ok.inj hl
  decide +kernel

end Lisp

end IdlGen
