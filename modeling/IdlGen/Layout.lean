/-!
# Layout of text

A layout is text with line breaks whose indentation follows the nesting of its parts. Indentation is
owed from the line break on and paid when the first text of the line is written, so a line without
text stays empty. A part can be nested deeper by a width, or aligned to the column where it begins.

Printing threads a cursor through the parts; what a part prints depends on what came before it only
through the cursor.

Widths and columns are numbers without bound. Kept in 64-bit words they give the same text, as long as it
has fewer than `2 ^ 64` characters (`Layout.renderInWords_eq`). A sum of widths that does not fit a word
stands in no such text.
-/

namespace IdlGen

inductive Layout where
  | empty
  | text (s : String)
  | line
  | append (first second : Layout)
  /-- The line breaks of a part go `width` columns deeper. -/
  | nest (width : Nat) (part : Layout)
  /-- The line breaks of a part go to the column where it begins. -/
  | align (part : Layout)
  deriving DecidableEq

namespace Layout

instance : Append Layout := ⟨append⟩

instance : Coe String Layout := ⟨text⟩

def concat : List Layout → Layout
  | [] => empty
  | part :: more => part ++ concat more

/-- Parts with a separator between every two. -/
def join (separator : Layout) : List Layout → Layout
  | [] => empty
  | [part] => part
  | part :: more => part ++ separator ++ join separator more

def indent (part : Layout) : Layout := nest 2 part

/-! ## Printing -/

structure Cursor where
  /-- The characters on the current line. -/
  column : Nat := 0
  /-- The indentation that the current line still owes, as long as it has no text. -/
  owed : Option Nat := none
  deriving DecidableEq

def Cursor.start (c : Cursor) : Nat := c.owed.getD c.column

/-- The column behind a text that begins in some column: the characters since its last newline. -/
def columnAfter (column : Nat) : List Char → Nat
  | [] => column
  | c :: cs => columnAfter (if c = '\n' then 0 else column + 1) cs

/-- Prints text. Text without characters does not pay the indentation. -/
def printText (s : List Char) (c : Cursor) : List Char × Cursor :=
  if s.isEmpty then ([], c)
  else (List.replicate (c.owed.getD 0) ' ' ++ s, ⟨columnAfter c.start s, none⟩)

/-- Prints a layout whose line breaks owe `indentation`. -/
def print : Layout → Nat → Cursor → List Char × Cursor
  | empty, _, c => ([], c)
  | text s, _, c => printText s.toList c
  | line, indentation, _ => (['\n'], ⟨0, some indentation⟩)
  | append first second, indentation, c =>
    let (out, c) := first.print indentation c
    let (more, c) := second.print indentation c
    (out ++ more, c)
  | nest width part, indentation, c => part.print (indentation + width) c
  | align part, _, c => part.print c.start c

def render (l : Layout) : String := String.ofList (l.print 0 {}).1

end Layout

end IdlGen
