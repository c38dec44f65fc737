import IdlGen.Text.CaseTable

/-!
# Lower-casing

Full lower-casing of a text. Two letters are special: the dotted capital `İ` becomes two characters,
and the capital sigma becomes `ς` at the end of a word and `σ` elsewhere. It ends a word when, past
characters that do not interrupt a word, a character with case comes before it and none after it.
-/

namespace IdlGen.Text

def inRanges (ranges : List (Nat × Nat)) (c : Char) : Bool :=
  ranges.any fun (first, last) => first ≤ c.toNat && c.toNat ≤ last

/-- A letter of either case, or one in title case. -/
def isCased (c : Char) : Bool :=
  if c.toNat < 0x80 then c.isAlpha else inRanges CaseTable.casedRanges c

/-- A character that does not interrupt a word. -/
def isCaseIgnorable (c : Char) : Bool := inRanges CaseTable.ignorableRanges c

/-- The lower case of a letter that has a one-letter one; every other character is its own. -/
def lowerLetter (c : Char) : Char :=
  if c.toNat < 0x80 then c.toLower
  else
    let range := CaseTable.lowerRanges.find? fun (first, last, step, _) =>
      first ≤ c.toNat && c.toNat ≤ last && (c.toNat - first) % step == 0
    match range with
    | some (_, _, _, distance) => Char.ofNat ((c.toNat : Int) + distance).toNat
    | none => c

/-- Whether the first character that may interrupt a word has case. -/
def startsCased (cs : List Char) : Bool :=
  match cs.dropWhile isCaseIgnorable with
  | [] => false
  | c :: _ => isCased c

/-- The lower case of `c` between the text before it, read backwards, and the text after it. -/
def lowerBetween (before : List Char) (c : Char) (after : List Char) : List Char :=
  if c = 'Σ' then
    if startsCased before && !startsCased after then ['ς'] else ['σ']
  else if c = 'İ' then ['i', '\u0307']
  else [lowerLetter c]

/-- Lower-cases a text that continues another one, given backwards. -/
def lowerFrom (before : List Char) : List Char → List Char
  | [] => []
  | c :: after => lowerBetween before c after ++ lowerFrom (c :: before) after

def lowercase (s : String) : String := String.ofList (lowerFrom [] s.toList)

end IdlGen.Text
