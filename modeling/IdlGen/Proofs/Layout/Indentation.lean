import IdlGen.Layout
import Mathlib.Data.List.Induction

/-!
# Where the indentation goes

Printing threads a cursor through a layout. Said without printing, a layout is a row of texts and line
breaks. Each break has a place: behind how many atoms of the row the innermost aligned part around it
begins, and how much deeper than that part it is nested. Indentations fit the places (`Indents`) if
every break has the start column of its aligned part and its nesting on top, and start columns are read
off what stands in front of the part.

There are such indentations for every layout, and its print is the row with the indentation of each
break put behind it, on the lines that get text (`weave`).
-/

namespace IdlGen.Layout

/-- Where a line break stands. -/
structure Place where
  /-- How many atoms come before the innermost aligned part around it; none if there is no such part. -/
  anchor : Option Nat := none
  /-- How much deeper it is nested than that part. -/
  nested : Nat := 0

inductive Atom where
  | text (s : List Char)
  | line (place : Place)

def Atom.isEmpty : Atom → Bool
  | text s => s.isEmpty
  | line _ => false

/-- The characters of an atom by itself. -/
def Atom.chars : Atom → List Char
  | text s => s
  | line _ => ['\n']

/-- The atoms of a part that stands at some place and has `n` atoms in front of it. -/
def atomsFrom : Layout → Place → Nat → List Atom
  | empty, _, _ => []
  | text s, _, _ => [.text s.toList]
  | line, place, _ => [.line place]
  | append first second, place, n =>
    first.atomsFrom place n ++ second.atomsFrom place (n + (first.atomsFrom place n).length)
  | nest width part, place, n => part.atomsFrom { place with nested := place.nested + width } n
  | align part, _, n => part.atomsFrom { anchor := some n } n

/-- The texts and line breaks of a layout, in order. -/
def atoms (l : Layout) : List Atom := l.atomsFrom {} 0

/-! ### Indentations

An indentation is a number for each position in the row; those of the texts do not matter. -/

/-- Whether a line that goes on with these atoms gets text. -/
def getsText : List Atom → Bool
  | [] => false
  | .text s :: more => !s.isEmpty || getsText more
  | .line _ :: _ => false

/-- The atoms in order, behind each break its indentation if its line gets text. -/
def weaveFrom (w : Nat → Nat) (i : Nat) : List Atom → List Char
  | [] => []
  | .text s :: more => s ++ weaveFrom w (i + 1) more
  | .line _ :: more =>
    '\n' :: List.replicate (if getsText more then w i else 0) ' ' ++ weaveFrom w (i + 1) more

def weave (w : Nat → Nat) (row : List Atom) : List Char := weaveFrom w 0 row

/-- The atoms in order, and nothing else. -/
def plain (row : List Atom) : List Char := row.flatMap Atom.chars

/-- The indentation owed behind these atoms: that of a break with nothing but empty texts behind it. -/
def owedFrom (w : Nat → Nat) (i : Nat) : List Atom → Option Nat
  | [] => none
  | .text _ :: more => owedFrom w (i + 1) more
  | .line _ :: more => if more.all Atom.isEmpty then some (w i) else owedFrom w (i + 1) more

/-- The characters behind the last newline. -/
def lineLength (out : List Char) : Nat := (out.reverse.takeWhile (· ≠ '\n')).length

/-- The column in which a part begins behind these atoms: the characters on its line so far, or the
indentation that the line still owes. -/
def startColumn (w : Nat → Nat) (before : List Atom) : Nat :=
  (owedFrom w 0 before).getD (lineLength (weave w before))

/-- The indentation that belongs to a place behind these atoms. -/
def Place.indentation (w : Nat → Nat) (before : List Atom) (place : Place) : Nat :=
  match place.anchor with
  | none => place.nested
  | some n => startColumn w (before.take n) + place.nested

/-- Every break has the indentation that belongs to its place. -/
def Indents (w : Nat → Nat) (row : List Atom) : Prop :=
  ∀ before place after, row = before ++ .line place :: after →
    w before.length = place.indentation w before

variable {w w' : Nat → Nat}

/-! ### Growing the row -/

theorem getsText_of_all_empty {row : List Atom} (h : row.all Atom.isEmpty) :
    getsText row = false := by
  induction row with
  | nil => rfl
  | cons a row ih =>
    simp only [List.all_cons, Bool.and_eq_true] at h
    cases a with
    | text s =>
      have hs : s.isEmpty = true := h.1
      simp [getsText, hs, ih h.2]
    | line place => rfl

/-- What comes behind a break or a text that is not empty does not matter to the line before. -/
theorem getsText_append {row : List Atom} (h : row.all Atom.isEmpty = false) (more : List Atom) :
    getsText (row ++ more) = getsText row := by
  induction row with
  | nil => simp at h
  | cons a row ih =>
    cases a with
    | line place => rfl
    | text s =>
      cases hs : s.isEmpty with
      | false => simp [getsText, hs]
      | true =>
        have hrow : row.all Atom.isEmpty = false := by
          simpa [Atom.isEmpty, hs] using h
        simp [getsText, hs, ih hrow]

theorem getsText_append_text {row : List Atom} {s : List Char} (hs : s ≠ [])
    (h : row.all Atom.isEmpty) : getsText (row ++ [.text s]) = true := by
  induction row with
  | nil => simpa [getsText] using hs
  | cons a row ih =>
    simp only [List.all_cons, Bool.and_eq_true] at h
    cases a with
    | text t => simp [getsText, ih h.2]
    | line place => exact absurd h.1 Bool.false_ne_true

/-- Behind atoms without text on their last line nothing is put in later on. -/
theorem weaveFrom_append {more : List Atom} (hmore : getsText more = false) (row : List Atom)
    (i : Nat) :
    weaveFrom w i (row ++ more) = weaveFrom w i row ++ weaveFrom w (i + row.length) more := by
  have hrow : ∀ row, getsText (row ++ more) = getsText row := by
    intro row
    induction row with
    | nil => simpa [getsText] using hmore
    | cons a row ih => cases a <;> simp [getsText, ih]
  induction row generalizing i with
  | nil => rfl
  | cons a row ih =>
    have hlength : i + (a :: row).length = i + 1 + row.length := by
      rw [List.length_cons]
      omega
    cases a with
    | text s => simp only [List.cons_append, weaveFrom, ih, hlength, List.append_assoc]
    | line place => simp only [List.cons_append, weaveFrom, hrow, ih, hlength, List.append_assoc]

theorem owedFrom_of_all_empty {row : List Atom} (h : row.all Atom.isEmpty) (i : Nat) :
    owedFrom w i row = none := by
  induction row generalizing i with
  | nil => rfl
  | cons a row ih =>
    simp only [List.all_cons, Bool.and_eq_true] at h
    cases a with
    | text s => exact ih h.2 (i + 1)
    | line place => exact absurd h.1 Bool.false_ne_true

theorem weaveFrom_of_all_empty {row : List Atom} (h : row.all Atom.isEmpty) (i : Nat) :
    weaveFrom w i row = [] := by
  induction row generalizing i with
  | nil => rfl
  | cons a row ih =>
    simp only [List.all_cons, Bool.and_eq_true] at h
    cases a with
    | text s =>
      have hs : s = [] := List.isEmpty_iff.1 h.1
      rw [weaveFrom, ih h.2, hs, List.append_nil]
    | line place => exact absurd h.1 Bool.false_ne_true

/-- A text pays what is owed in front of it. -/
theorem weaveFrom_append_text {s : List Char} (hs : s ≠ []) (row : List Atom) (i : Nat) :
    weaveFrom w i (row ++ [.text s]) =
      weaveFrom w i row ++ List.replicate ((owedFrom w i row).getD 0) ' ' ++ s := by
  induction row generalizing i with
  | nil => simp [weaveFrom, owedFrom]
  | cons a row ih =>
    cases a with
    | text t =>
      simp only [List.cons_append, weaveFrom, owedFrom, ih, List.append_assoc]
    | line place =>
      cases hempty : row.all Atom.isEmpty with
      | true =>
        -- Only now does the line of this break get text.
        simp only [List.cons_append, weaveFrom, owedFrom, ih, hempty,
          getsText_append_text hs hempty, getsText_of_all_empty hempty,
          owedFrom_of_all_empty hempty, weaveFrom_of_all_empty hempty]
        simp
      | false =>
        simp only [List.cons_append, weaveFrom, owedFrom, ih, hempty, getsText_append hempty,
          List.append_assoc]
        simp

theorem owedFrom_append_text (row : List Atom) (s : List Char) (i : Nat) :
    owedFrom w i (row ++ [.text s]) = if s.isEmpty then owedFrom w i row else none := by
  induction row generalizing i with
  | nil => simp [owedFrom]
  | cons a row ih =>
    cases a with
    | text t => exact ih (i + 1)
    | line place =>
      cases hs : s.isEmpty <;> simp [owedFrom, ih, hs, Atom.isEmpty]

theorem owedFrom_append_line (row : List Atom) (place : Place) (i : Nat) :
    owedFrom w i (row ++ [.line place]) = some (w (i + row.length)) := by
  induction row generalizing i with
  | nil => rfl
  | cons a row ih =>
    have hlength : i + 1 + row.length = i + (a :: row).length := by
      rw [List.length_cons]
      omega
    cases a with
    | text t => rw [List.cons_append, owedFrom, ih, hlength]
    | line other =>
      simp only [List.cons_append, owedFrom, ih, hlength, List.all_append, List.all_cons,
        Atom.isEmpty]
      simp

/-- A line that owes its indentation is empty. -/
theorem weaveFrom_of_owed {row : List Atom} {i k : Nat} (h : owedFrom w i row = some k) :
    ∃ out, weaveFrom w i row = out ++ ['\n'] := by
  induction row generalizing i with
  | nil => cases h
  | cons a row ih =>
    cases a with
    | text t =>
      obtain ⟨out, hout⟩ := ih h
      exact ⟨t ++ out, by rw [weaveFrom, hout, List.append_assoc]⟩
    | line place =>
      cases hempty : row.all Atom.isEmpty with
      | true =>
        refine ⟨[], ?_⟩
        rw [weaveFrom, getsText_of_all_empty hempty, weaveFrom_of_all_empty hempty]
        rfl
      | false =>
        simp only [owedFrom, hempty] at h
        obtain ⟨out, hout⟩ := ih h
        exact ⟨_, by rw [weaveFrom, hout, ← List.append_assoc]⟩

/-! ### Columns -/

theorem lineLength_append (out s : List Char) :
    lineLength (out ++ s) = columnAfter (lineLength out) s := by
  induction s generalizing out with
  | nil => rw [List.append_nil]; rfl
  | cons c s ih =>
    have hlast : lineLength (out ++ [c]) = if c = '\n' then 0 else lineLength out + 1 := by
      unfold lineLength
      split <;> simp [*]
    rw [List.append_cons, ih, hlast]
    rfl

theorem columnAfter_replicate (column n : Nat) :
    columnAfter column (List.replicate n ' ') = column + n := by
  induction n generalizing column with
  | zero => rfl
  | succ n ih =>
    rw [List.replicate_succ]
    show columnAfter (column + 1) _ = _
    rw [ih]
    omega

/-- Once the owed indentation is paid, the line is as long as the start column says. -/
theorem lineLength_paid (before : List Atom) :
    lineLength (weave w before ++ List.replicate ((owedFrom w 0 before).getD 0) ' ') =
      startColumn w before := by
  unfold startColumn
  cases howed : owedFrom w 0 before with
  | none => simp
  | some k =>
    obtain ⟨out, hout⟩ := weaveFrom_of_owed howed
    rw [weave, hout, lineLength_append, lineLength_append]
    show columnAfter 0 (List.replicate k ' ') = k
    rw [columnAfter_replicate, Nat.zero_add]

/-! ### Printing -/

theorem printText_of_ne_nil {s : List Char} (hs : s ≠ []) (c : Cursor) :
    printText s c =
      (List.replicate (c.owed.getD 0) ' ' ++ s, ⟨columnAfter c.start s, none⟩) := by
  rw [printText, if_neg (by simpa using hs)]

/-- The cursor behind these atoms. -/
structure Tracks (w : Nat → Nat) (before : List Atom) (c : Cursor) : Prop where
  owed : c.owed = owedFrom w 0 before
  column : c.owed = none → c.column = lineLength (weave w before)

theorem Tracks.start {before : List Atom} {c : Cursor} (h : Tracks w before c) :
    c.start = startColumn w before := by
  unfold Cursor.start startColumn
  rw [← h.owed]
  cases howed : c.owed with
  | none => exact h.column howed
  | some k => rfl

/-- Text behind these atoms adds what it prints. -/
theorem weave_text {before : List Atom} {c : Cursor} (h : Tracks w before c) (s : List Char) :
    weave w (before ++ [.text s]) = weave w before ++ (printText s c).1 ∧
      Tracks w (before ++ [.text s]) (printText s c).2 := by
  cases hs : s.isEmpty with
  | true =>
    have hnil : s = [] := List.isEmpty_iff.1 hs
    have hsame : weave w (before ++ [.text s]) = weave w before := by
      rw [hnil, weave, weaveFrom_append rfl]
      exact List.append_nil _
    have howed : owedFrom w 0 (before ++ [.text s]) = owedFrom w 0 before := by
      rw [owedFrom_append_text, if_pos hs]
    simp only [printText, hs, if_true]
    refine ⟨by rw [hsame, List.append_nil], ⟨by rw [howed, h.owed], ?_⟩⟩
    rw [hsame]
    exact h.column
  | false =>
    have hne : s ≠ [] := by
      rintro rfl
      cases hs
    have hgrown : weave w (before ++ [.text s]) =
        weave w before ++ List.replicate ((owedFrom w 0 before).getD 0) ' ' ++ s :=
      weaveFrom_append_text hne before 0
    simp only [printText, hs, Bool.false_eq_true, if_false]
    refine ⟨?_, ⟨?_, fun _ => ?_⟩⟩
    · rw [hgrown, h.owed, List.append_assoc]
    · rw [owedFrom_append_text, hs]
      rfl
    · rw [hgrown, lineLength_append, lineLength_paid, h.start]

theorem weave_line {before : List Atom} {place : Place} (i : Nat)
    (hw : w before.length = i) :
    weave w (before ++ [.line place]) = weave w before ++ ['\n'] ∧
      Tracks w (before ++ [.line place]) ⟨0, some i⟩ := by
  refine ⟨weaveFrom_append rfl before 0, ⟨?_, (nomatch ·)⟩⟩
  rw [owedFrom_append_line, Nat.zero_add, hw]

/-- The place begins no later than here. -/
def Place.Within (place : Place) (n : Nat) : Prop := ∀ k, place.anchor = some k → k ≤ n

theorem Place.indentation_append {place : Place} {before : List Atom}
    (h : place.Within before.length) (more : List Atom) :
    place.indentation w (before ++ more) = place.indentation w before := by
  unfold Place.indentation
  cases hanchor : place.anchor with
  | none => rfl
  | some n => simp only [List.take_append_of_le_length (h n hanchor)]

theorem Indents.of_append {row more : List Atom} (h : Indents w (row ++ more)) : Indents w row := by
  intro before place after hrow
  apply h before place (after ++ more)
  rw [hrow, List.append_assoc, List.cons_append]

/-- Where indentations fit, a part adds to the row what it prints. -/
theorem weave_print {l : Layout} {before : List Atom} {place : Place} {c : Cursor}
    (hw : Indents w (before ++ l.atomsFrom place before.length)) (hplace : place.Within before.length)
    (hc : Tracks w before c) :
    weave w (before ++ l.atomsFrom place before.length) =
        weave w before ++ (l.print (place.indentation w before) c).1 ∧
      Tracks w (before ++ l.atomsFrom place before.length)
        (l.print (place.indentation w before) c).2 := by
  induction l generalizing before place c with
  | empty =>
    simp only [atomsFrom, print, List.append_nil]
    exact ⟨trivial, hc⟩
  | text s => exact weave_text hc s.toList
  | line => exact weave_line _ (hw before place [] rfl)
  | append first second ihFirst ihSecond =>
    have hlength : (before ++ first.atomsFrom place before.length).length =
        before.length + (first.atomsFrom place before.length).length := List.length_append
    simp only [atomsFrom, print, ← List.append_assoc] at hw ⊢
    obtain ⟨hfirst, htracks⟩ := ihFirst hw.of_append hplace hc
    -- The second part stands at the same place, whose indentation is still the same.
    have hsame := Place.indentation_append (w := w) hplace (first.atomsFrom place before.length)
    have hwithin : place.Within (before ++ first.atomsFrom place before.length).length := by
      intro k hk
      have hle := hplace k hk
      omega
    rw [← hlength] at hw ⊢
    obtain ⟨hsecond, htracks'⟩ := ihSecond hw hwithin htracks
    rw [hsame] at hsecond htracks'
    exact ⟨by rw [hsecond, hfirst], htracks'⟩
  | nest width part ih =>
    have hdeeper : Place.indentation w before { place with nested := place.nested + width } =
        place.indentation w before + width := by
      unfold Place.indentation
      cases place.anchor with
      | none => rfl
      | some n => exact (Nat.add_assoc _ _ _).symm
    have hpart := ih hw hplace hc
    rw [hdeeper] at hpart
    exact hpart
  | align part ih =>
    have hwithin : Place.Within { anchor := some before.length } before.length := by
      intro k hk
      obtain rfl := Option.some.inj hk
      exact Nat.le_refl _
    have hstart : Place.indentation w before { anchor := some before.length } = c.start := by
      rw [hc.start]
      simp only [Place.indentation, List.take_length, Nat.add_zero]
    have hpart := ih hw hwithin hc
    rw [hstart] at hpart
    exact hpart

theorem render_eq_weave {l : Layout} (hw : Indents w l.atoms) :
    l.render.toList = weave w l.atoms := by
  have hstart : Tracks w [] {} := ⟨rfl, fun _ => rfl⟩
  have hplace : Place.Within {} ([] : List Atom).length := by nofun
  obtain ⟨hprint, -⟩ := @weave_print w l [] {} {} hw hplace hstart
  rw [render, String.toList_ofList]
  exact hprint.symm

/-! ### Indentations exist -/

theorem weaveFrom_congr {row : List Atom} {i : Nat} (h : ∀ j < i + row.length, w j = w' j) :
    weaveFrom w i row = weaveFrom w' i row := by
  induction row generalizing i with
  | nil => rfl
  | cons a row ih =>
    rw [List.length_cons] at h
    have hrow : weaveFrom w (i + 1) row = weaveFrom w' (i + 1) row :=
      ih fun j hj => h j (by omega)
    cases a with
    | text s => rw [weaveFrom, weaveFrom, hrow]
    | line place => rw [weaveFrom, weaveFrom, hrow, h i (by omega)]

theorem owedFrom_congr {row : List Atom} {i : Nat} (h : ∀ j < i + row.length, w j = w' j) :
    owedFrom w i row = owedFrom w' i row := by
  induction row generalizing i with
  | nil => rfl
  | cons a row ih =>
    rw [List.length_cons] at h
    have hrow : owedFrom w (i + 1) row = owedFrom w' (i + 1) row :=
      ih fun j hj => h j (by omega)
    cases a with
    | text s => exact hrow
    | line place => rw [owedFrom, owedFrom, hrow, h i (by omega)]

/-- The indentation of a place hangs on earlier ones only. -/
theorem Place.indentation_congr {before : List Atom} (h : ∀ j < before.length, w j = w' j)
    (place : Place) : place.indentation w before = place.indentation w' before := by
  unfold Place.indentation
  cases place.anchor with
  | none => rfl
  | some n =>
    have hearlier : ∀ j < 0 + (before.take n).length, w j = w' j := by
      intro j hj
      rw [List.length_take] at hj
      exact h j (by omega)
    simp only [startColumn, weave, owedFrom_congr hearlier, weaveFrom_congr hearlier]

/-- A row grows by one atom; earlier breaks do not notice the number that it gets. -/
theorem Indents.snoc {row : List Atom} (hw : Indents w row) (a : Atom) :
    ∃ w', Indents w' (row ++ [a]) := by
  let number : Nat := match a with
    | .text _ => 0
    | .line place => place.indentation w row
  let w' : Nat → Nat := fun j => if j = row.length then number else w j
  have hsame : ∀ before : List Atom, before.length ≤ row.length → ∀ j < before.length,
      w j = w' j := by
    intro before hle j hj
    exact (if_neg (by omega)).symm
  refine ⟨w', ?_⟩
  intro before place after hsplit
  rcases List.eq_nil_or_concat after with rfl | ⟨after, b, rfl⟩
  · obtain ⟨rfl, hline⟩ := List.append_inj' hsplit rfl
    obtain rfl : a = .line place := by simpa using hline
    have hnumber : w' row.length = place.indentation w row := if_pos rfl
    rw [hnumber]
    exact Place.indentation_congr (hsame row (Nat.le_refl _)) place
  · rw [List.concat_eq_append, ← List.cons_append, ← List.append_assoc] at hsplit
    obtain ⟨hrow, -⟩ := List.append_inj' hsplit rfl
    have hshorter : before.length < row.length := by
      rw [hrow, List.length_append, List.length_cons]
      omega
    have holder : w' before.length = w before.length := if_neg (by omega)
    rw [holder, hw before place after hrow]
    exact Place.indentation_congr (hsame before (by omega)) place

theorem exists_indents (row : List Atom) : ∃ w, Indents w row := by
  induction row using List.reverseRecOn with
  | nil => exact ⟨fun _ => 0, fun before place after h => by simp at h⟩
  | append_singleton row a ih =>
    obtain ⟨w, hw⟩ := ih
    exact hw.snoc a

/-! ### What stays of the row -/

/-- The characters of a text other than blanks. -/
def ink (s : List Char) : List Char := s.filter (· ≠ ' ')

theorem ink_append (s t : List Char) : ink (s ++ t) = ink s ++ ink t :=
  List.filter_append s t

theorem ink_replicate (n : Nat) : ink (List.replicate n ' ') = [] := by
  simp [ink]

/-- What is printed splits where the row does, and the front holds the atoms there and blanks. -/
theorem weaveFrom_split (before rest : List Atom) (i : Nat) :
    ∃ front, weaveFrom w i (before ++ rest) = front ++ weaveFrom w (i + before.length) rest ∧
      (plain before).Sublist front ∧ ink front = ink (plain before) := by
  induction before generalizing i with
  | nil => exact ⟨[], rfl, List.Sublist.refl [], rfl⟩
  | cons a before ih =>
    obtain ⟨front, hweave, hsublist, hink⟩ := ih (i + 1)
    have hlength : i + (a :: before).length = i + 1 + before.length := by
      rw [List.length_cons]
      omega
    cases a with
    | text s =>
      refine ⟨s ++ front, ?_, hsublist.append_left s, ?_⟩
      · rw [List.cons_append, weaveFrom, hweave, hlength, List.append_assoc]
      · show ink (s ++ front) = ink (s ++ plain before)
        rw [ink_append, ink_append, hink]
    | line place =>
      refine ⟨['\n'] ++ (List.replicate (if getsText (before ++ rest) then w i else 0) ' ' ++ front),
        ?_, ?_, ?_⟩
      · rw [List.cons_append, weaveFrom, hweave, hlength]
        simp only [List.cons_append, List.nil_append, List.append_assoc]
      · show (['\n'] ++ plain before).Sublist _
        exact (hsublist.trans (List.sublist_append_right _ _)).append_left _
      · show _ = ink (['\n'] ++ plain before)
        rw [ink_append, ink_append, ink_replicate, List.nil_append, ink_append, hink]

theorem weaveFrom_of_no_text {row : List Atom} (h : getsText row = false) (i : Nat) :
    weaveFrom w i row = [] ∨ (weaveFrom w i row).head? = some '\n' := by
  induction row generalizing i with
  | nil => exact .inl rfl
  | cons a row ih =>
    cases a with
    | text s =>
      simp only [getsText, Bool.or_eq_false_iff, Bool.not_eq_false'] at h
      have hs : s = [] := List.isEmpty_iff.1 h.1
      rw [weaveFrom, hs]
      exact ih h.2 (i + 1)
    | line place => exact .inr rfl

/-- A layout is printed as the row of its texts and line breaks, with the indentation of each break
behind it if its line gets text; there are indentations that fit, and all that do are printed. So no
character is lost or moved, blanks are all that is put in, they never get into a text, and a line
without text is empty. -/
theorem printed_as_laid_out (l : Layout) :
    (∃ w, Indents w l.atoms) ∧ (∀ w, Indents w l.atoms → l.render.toList = weave w l.atoms) ∧
      (plain l.atoms).Sublist l.render.toList ∧ ink l.render.toList = ink (plain l.atoms) ∧
      (∀ before s after, l.atoms = before ++ .text s :: after → ∃ front back,
        l.render.toList = front ++ s ++ back ∧ ink front = ink (plain before)) ∧
      (∀ before place after, l.atoms = before ++ .line place :: after → getsText after = false →
        ∃ front back, l.render.toList = front ++ '\n' :: back ∧ ink front = ink (plain before) ∧
          (back = [] ∨ back.head? = some '\n')) := by
  obtain ⟨w, hw⟩ := exists_indents l.atoms
  have hrender := render_eq_weave hw
  have hsplit : ∀ before rest, l.atoms = before ++ rest → ∃ front,
      l.render.toList = front ++ weaveFrom w (0 + before.length) rest ∧
        (plain before).Sublist front ∧ ink front = ink (plain before) := by
    intro before rest hatoms
    rw [hrender, hatoms]
    exact weaveFrom_split before rest 0
  obtain ⟨whole, hwhole, hsublist, hink⟩ := hsplit l.atoms [] (List.append_nil _).symm
  obtain rfl : l.render.toList = whole := hwhole.trans (List.append_nil whole)
  refine ⟨⟨w, hw⟩, fun w' hw' => render_eq_weave hw', hsublist, hink, ?_, ?_⟩
  · intro before s after hatoms
    obtain ⟨front, hfront, -, hsame⟩ := hsplit before _ hatoms
    exact ⟨front, _, hfront.trans (List.append_assoc _ _ _).symm, hsame⟩
  · intro before place after hatoms hempty
    obtain ⟨front, hfront, -, hsame⟩ := hsplit before _ hatoms
    refine ⟨front, weaveFrom w (0 + before.length + 1) after, ?_, hsame,
      weaveFrom_of_no_text hempty _⟩
    rw [hfront, weaveFrom, hempty]
    rfl

/-- A text that breaks the line moves the column to which the breaks of an aligned part go. -/
example : (Layout.text "\"first\nsecond\" (" ++ align (join .line ["x", "y"])).render =
    "\"first\nsecond\" (x\n         y" := by
  decide +kernel

end IdlGen.Layout
