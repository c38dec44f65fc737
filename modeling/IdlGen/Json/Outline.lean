import IdlGen.Json.Token

/-!
# Outlines

The outline of a text is its tree of values as far as the text goes. Where the text stops being
JSON, the outline ends in a leaf that says what was found there, and nothing behind that place is
looked at. So an outline holds all that any reader can come to know of the text, in the order in
which it comes to know it.
-/

namespace IdlGen.Json

mutual

inductive Outline where
  | word (w : Word)
  | number (n : Numeral)
  | string (text : Option (List Char))
  | array (items : Items)
  | object (members : Members)
  /-- No value; `none` at the end of the text. -/
  | broken (found : Option Token)

/-- What stands behind the opening bracket of an array, or behind one of its items. -/
inductive Items where
  | close
  /-- The first item, or a comma and the next one. -/
  | item (value : Outline) (rest : Items)
  | cut (fault : Fault)

/-- What stands behind the opening brace of an object, or behind one of its members. -/
inductive Members where
  | close
  /-- The first member, or a comma and the next one. -/
  | member (key : Option (List Char)) (value : Outline) (rest : Members)
  /-- A key without the colon that belongs behind it. -/
  | bare (key : Option (List Char)) (fault : Fault)
  /-- Something other than a string where a key belongs. -/
  | stray (found : Option Token)
  /-- Neither comma nor brace behind a member. -/
  | cut (fault : Fault)

end

/-! ## From tokens -/

/-- The problem of a place where some particular mark is missing. -/
def missingMark : List Token → Fault
  | [] => .truncated
  | _ :: _ => .malformed

namespace Outline

mutual

/-- Reads a value. Every step takes a token, so the number of tokens bounds the steps. -/
def value : Nat → List Token → Outline × List Token
  | 0, ts => (.broken ts.head?, ts)
  | _ + 1, [] => (.broken none, [])
  | steps + 1, t :: ts =>
    match t with
    | .word w => (.word w, ts)
    | .number n => (.number n, ts)
    | .string text => (.string text, ts)
    | .mark .openBracket =>
      let (items, rest) := firstItem steps ts
      (.array items, rest)
    | .mark .openBrace =>
      let (members, rest) := firstMember steps ts
      (.object members, rest)
    | _ => (.broken (some t), t :: ts)

def firstItem : Nat → List Token → Items × List Token
  | 0, ts => (.cut .malformed, ts)
  | _ + 1, .mark .closeBracket :: ts => (.close, ts)
  | _ + 1, [] => (.cut .truncated, [])
  | steps + 1, t :: ts =>
    let (first, rest) := value steps (t :: ts)
    let (items, rest) := nextItem steps rest
    (.item first items, rest)

def nextItem : Nat → List Token → Items × List Token
  | 0, ts => (.cut .malformed, ts)
  | _ + 1, .mark .closeBracket :: ts => (.close, ts)
  | steps + 1, .mark .comma :: ts =>
    let (next, rest) := value steps ts
    let (items, rest) := nextItem steps rest
    (.item next items, rest)
  | _ + 1, ts => (.cut (missingMark ts), ts)

def firstMember : Nat → List Token → Members × List Token
  | 0, ts => (.cut .malformed, ts)
  | _ + 1, .mark .closeBrace :: ts => (.close, ts)
  | steps + 1, ts => member steps ts

def member : Nat → List Token → Members × List Token
  | 0, ts => (.cut .malformed, ts)
  | steps + 1, .string key :: .mark .colon :: ts =>
    let (value, rest) := value steps ts
    let (members, rest) := nextMember steps rest
    (.member key value members, rest)
  | _ + 1, .string key :: ts => (.bare key (missingMark ts), ts)
  | _ + 1, ts => (.stray ts.head?, ts)

def nextMember : Nat → List Token → Members × List Token
  | 0, ts => (.cut .malformed, ts)
  | _ + 1, .mark .closeBrace :: ts => (.close, ts)
  | steps + 1, .mark .comma :: ts => member steps ts
  | _ + 1, ts => (.cut (missingMark ts), ts)

end

/-- The outline of a token sequence, and the tokens behind it. -/
def ofTokens (ts : List Token) : Outline × List Token := value (2 * ts.length + 2) ts

def ofText (text : List Char) : Outline × List Token := ofTokens (Token.scan text)

/-! ## Problems -/

/-- The problem of finding this where a value of another kind is wanted. Words, numbers and strings
are read through first; arrays and objects are refused at their opening mark. -/
def refusal : Outline → Fault
  | .word _ => .mismatched
  | .number n => if n.toBinary64?.isSome then .mismatched else .malformed
  | .string text => if text.isSome then .mismatched else .malformed
  | .array _ => .mismatched
  | .object _ => .mismatched
  | .broken none => .truncated
  | .broken (some (.broken _ wanted _)) => wanted
  | .broken (some _) => .malformed

mutual

/-- Passes over a value that nobody wants. It must be JSON, at any depth, but numbers may be out of
range and surrogates without partner. -/
def skip : Outline → Except Fault Unit
  | .word _ => .ok ()
  | .number _ => .ok ()
  | .string _ => .ok ()
  | .array items => skipItems items
  | .object members => skipMembers members
  | .broken none => .error .truncated
  | .broken (some (.broken _ _ ignored)) => .error ignored
  | .broken (some _) => .error .malformed

def skipItems : Items → Except Fault Unit
  | .close => .ok ()
  | .item value rest =>
    match skip value with
    | .ok () => skipItems rest
    | .error fault => .error fault
  | .cut fault => .error fault

def skipMembers : Members → Except Fault Unit
  | .close => .ok ()
  | .member _ value rest =>
    match skip value with
    | .ok () => skipMembers rest
    | .error fault => .error fault
  | .bare _ fault => .error fault
  | .stray none => .error .truncated
  | .stray (some (.broken .string _ ignored)) => .error ignored
  | .stray (some _) => .error .malformed
  | .cut fault => .error fault

end

end Outline

end IdlGen.Json
