/-!
# UTF-8

Texts are lists of characters, files and streams are lists of bytes. Writing is a map over the
characters. Reading is a machine that takes one byte at a time: between characters, or inside one
with the ranges of the bytes still owed. A byte outside its range ends the character it should have
continued and is looked at again as the start of the next.
-/

namespace IdlGen.Utf8

def encode (text : List Char) : List UInt8 := text.flatMap String.utf8EncodeChar

@[simp] theorem encode_nil : encode [] = [] := rfl

@[simp] theorem encode_append (a b : List Char) : encode (a ++ b) = encode a ++ encode b :=
  List.flatMap_append

/-- A character begun: its leading bits and the ranges of the bytes it still needs. -/
structure Begun where
  bits : Nat
  owed : List (UInt8 × UInt8)

def tail : UInt8 × UInt8 := (0x80, 0xBF)

/-- What a first byte begins. Overlong forms, surrogates and values above `U+10FFFF` are excluded
by the range of the second byte. -/
def start (b : UInt8) : Option Begun :=
  let n := b.toNat
  if b < 0x80 then some ⟨n, []⟩
  else if b < 0xC2 then none
  else if b < 0xE0 then some ⟨n - 0xC0, [tail]⟩
  else if b = 0xE0 then some ⟨0, [(0xA0, 0xBF), tail]⟩
  else if b = 0xED then some ⟨0xD, [(0x80, 0x9F), tail]⟩
  else if b < 0xF0 then some ⟨n - 0xE0, [tail, tail]⟩
  else if b = 0xF0 then some ⟨0, [(0x90, 0xBF), tail, tail]⟩
  else if b < 0xF4 then some ⟨n - 0xF0, [tail, tail, tail]⟩
  else if b = 0xF4 then some ⟨4, [(0x80, 0x8F), tail, tail]⟩
  else none

/-- The characters of a byte sequence, with `none` for each longest part that begins a character
and does not finish it and for each byte that begins none. -/
def scan : Option Begun → List UInt8 → List (Option Char)
  | none, [] => []
  | some _, [] => [none]
  | state, b :: bs =>
    let fresh (skipped : List (Option Char)) : List (Option Char) :=
      match start b with
      | none => skipped ++ none :: scan none bs
      | some ⟨bits, []⟩ => skipped ++ some (Char.ofNat bits) :: scan none bs
      | some begun => skipped ++ scan (some begun) bs
    match state with
    | none => fresh []
    | some ⟨_, []⟩ => fresh [none]
    | some ⟨bits, (low, high) :: more⟩ =>
      if low ≤ b ∧ b ≤ high then
        let bits := bits * 64 + b.toNat % 64
        if more.isEmpty then some (Char.ofNat bits) :: scan none bs
        else scan (some ⟨bits, more⟩) bs
      else fresh [none]

/-- The text of a byte sequence, if it is well formed. -/
def decode? (bytes : List UInt8) : Option (List Char) := (scan none bytes).mapM id

/-- The text of a byte sequence, each ill-formed part shown as the replacement character. -/
def decodeLossy (bytes : List UInt8) : List Char := (scan none bytes).map (·.getD '\uFFFD')

end IdlGen.Utf8
