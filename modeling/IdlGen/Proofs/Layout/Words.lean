import IdlGen.Proofs.Layout.Indentation

/-!
# Columns in machine words

A printer that keeps its columns and indentations in 64-bit words, where they wrap around, still carries
the right residues from part to part. It goes wrong only where it pays an indentation that does not fit a
word. A text that holds such an indentation is longer than any word counts, so every shorter text is printed
as with numbers that have no bound.
-/

namespace IdlGen.Layout

/-- A cursor in words. -/
structure WordCursor where
  column : UInt64 := 0
  owed : Option UInt64 := none

def WordCursor.start (c : WordCursor) : UInt64 := c.owed.getD c.column

def wordAfter (column : UInt64) : List Char → UInt64
  | [] => column
  | c :: cs => wordAfter (if c = '\n' then 0 else column + 1) cs

def printTextInWords (s : List Char) (c : WordCursor) : List Char × WordCursor :=
  if s.isEmpty then ([], c)
  else (List.replicate (c.owed.getD 0).toNat ' ' ++ s, ⟨wordAfter c.start s, none⟩)

/-- Prints a layout as `print` does, in words that wrap around. -/
def printInWords : Layout → UInt64 → WordCursor → List Char × WordCursor
  | empty, _, c => ([], c)
  | text s, _, c => printTextInWords s.toList c
  | line, indentation, _ => (['\n'], ⟨0, some indentation⟩)
  | append first second, indentation, c =>
    let (out, c) := first.printInWords indentation c
    let (more, c) := second.printInWords indentation c
    (out ++ more, c)
  | nest width part, indentation, c => part.printInWords (indentation + .ofNat width) c
  | align part, _, c => part.printInWords c.start c

def renderInWords (l : Layout) : String := String.ofList (l.printInWords 0 {}).1

/-! ### Residues -/

/-- The cursor as words hold it. -/
def Cursor.word (c : Cursor) : WordCursor := ⟨.ofNat c.column, c.owed.map .ofNat⟩

theorem start_word (c : Cursor) : c.word.start = .ofNat c.start := by
  unfold Cursor.word Cursor.start WordCursor.start
  cases c.owed <;> rfl

theorem owed_word (c : Cursor) : c.word.owed.getD 0 = .ofNat (c.owed.getD 0) := by
  unfold Cursor.word
  cases c.owed <;> rfl

theorem wordAfter_ofNat (column : Nat) (s : List Char) :
    wordAfter (.ofNat column) s = .ofNat (columnAfter column s) := by
  induction s generalizing column with
  | nil => rfl
  | cons c s ih =>
    rw [wordAfter, columnAfter, ← ih]
    split
    · rfl
    · rw [UInt64.ofNat_add, UInt64.ofNat_one]

/-- What is owed stands in the text as soon as it is paid, so it fits a word. -/
theorem printTextInWords_word {s : List Char} {c : Cursor} (h : (printText s c).1.length < UInt64.size) :
    printTextInWords s c.word = ((printText s c).1, (printText s c).2.word) := by
  by_cases hs : s = []
  · subst hs
    rfl
  · rw [printText_of_ne_nil hs] at h ⊢
    have howed : c.owed.getD 0 < UInt64.size := by
      rw [List.length_append, List.length_replicate] at h
      exact Nat.lt_of_le_of_lt (Nat.le_add_right _ _) h
    have hpaid : (c.word.owed.getD 0).toNat = c.owed.getD 0 := by
      rw [owed_word, UInt64.toNat_ofNat_of_lt' howed]
    rw [printTextInWords, if_neg (by simpa using hs), hpaid, start_word, wordAfter_ofNat]
    rfl

theorem printInWords_word {l : Layout} {indentation : Nat} {c : Cursor}
    (h : (l.print indentation c).1.length < UInt64.size) :
    l.printInWords (.ofNat indentation) c.word =
      ((l.print indentation c).1, (l.print indentation c).2.word) := by
  induction l generalizing indentation c with
  | empty => rfl
  | text s => exact printTextInWords_word h
  | line => rfl
  | append first second ihFirst ihSecond =>
    -- Both parts print less than the whole.
    simp only [print, List.length_append] at h
    have hfirst := ihFirst (Nat.lt_of_le_of_lt (Nat.le_add_right _ _) h)
    have hsecond := ihSecond (Nat.lt_of_le_of_lt (Nat.le_add_left _ _) h)
    simp only [printInWords, print, hfirst, hsecond]
  | nest width part ih =>
    rw [printInWords, ← UInt64.ofNat_add]
    exact ih h
  | align part ih =>
    rw [printInWords, start_word]
    exact ih h

/-- A text with fewer than `2 ^ 64` characters is rendered alike in words and without bounds. -/
theorem renderInWords_eq {l : Layout} (h : l.render.length < UInt64.size) : l.renderInWords = l.render := by
  rw [render, String.length_ofList] at h
  have hwords := printInWords_word h
  change l.printInWords 0 {} = _ at hwords
  rw [renderInWords, hwords]
  rfl

/-- Beyond that an indentation wraps around, here to nothing. -/
example : (nest UInt64.size (concat [line, "a"])).renderInWords = "\na" := by decide

end IdlGen.Layout
