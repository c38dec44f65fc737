import IdlGen.Json.Outline
import IdlGen.Json.Value
import IdlGen.Keyed

/-!
# Formats of documents

A format says which JSON stands for a kind of thing. Reading a text by a format gives the one value
that is written for what the text says: members in the order of their slots, defaults filled in,
entries of dictionaries sorted, numbers in range. The first problem in the order of the text
decides how a text is refused.

Formats refer to each other by name, so that types can hold records and records types. The names
are a parameter, and a grammar gives the body of each.
-/

namespace IdlGen.Json

inductive Format (κ : Type) where
  | text
  | flag
  /-- An integer from `low` to `high`. -/
  | integer (low high : Int)
  | double
  /-- An object of texts under free keys; a repeated key keeps the last text. -/
  | texts
  | list (item : Format κ)
  | pair (first second : Format κ)
  | named (name : κ)

/-- What holds if a slot is not filled. -/
inductive Presence where
  | required
  /-- Null says the same as no member. -/
  | optional
  | otherwise (value : Value)

structure Slot (κ : Type) where
  key : String
  format : Format κ
  presence : Presence

inductive Body (κ : Type) where
  /-- An object of the slots in any order, other members being ignored, or an array of them in
  their order. -/
  | record (slots : List (Slot κ))
  /-- An object of one member, whose key says what its value is. A case without format has no value
  and may be given as the bare key. -/
  | choice (cases : List (String × Option (Format κ)))

/-! ## Slots -/

def Presence.settle : Presence → Except Fault (Option Value)
  | .required => .error .mismatched
  | .optional => .ok none
  | .otherwise value => .ok (some value)

/-- What an optional slot makes of null. -/
def Presence.null? : Presence → Outline → Option (Except Fault (Option Value))
  | .optional, .word .null => some (.ok none)
  | .optional, .broken (some (.broken .null wanted _)) => some (.error wanted)
  | _, _ => none

variable {κ : Type}

/-- The slot that a key fills: `none` for a key of no slot. A slot is filled once. -/
def claim (slots : List (Slot κ)) (seen : List (String × Option Value)) :
    Option (List Char) → Except Fault (Option (Slot κ))
  | none => .error .malformed
  | some key =>
    match slots.find? fun slot => slot.key = String.ofList key with
    | none => .ok none
    | some slot => if (seen.lookup slot.key).isSome then .error .mismatched else .ok (some slot)

/-- What all slots hold once the members have been seen. -/
def settleAll (slots : List (Slot κ)) (seen : List (String × Option Value)) :
    Except Fault (List (Option Value)) :=
  slots.mapM fun slot =>
    match seen.lookup slot.key with
    | some held => .ok held
    | none => slot.presence.settle

def recordValue (slots : List (Slot κ)) (held : List (Option Value)) : Value :=
  .object (List.zipWith (fun slot value => (slot.key, value)) slots held)

/-! ## Cases -/

def caseOf (cases : List (String × Option (Format κ))) :
    Option (List Char) → Except Fault (String × Option (Format κ))
  | none => .error .malformed
  | some key =>
    match cases.find? fun c => c.1 = String.ofList key with
    | none => .error .mismatched
    | some c => .ok c

/-- A choice is over behind its one member. -/
def endChoice (v : Value) : Members → Except Fault Value
  | .close => .ok v
  | .cut fault => .error fault
  | _ => .error .malformed

/-- The problem of something other than a string where a key belongs. Readers look for its quote there and
for nothing else, those of the one key of a choice as well. So a number or a word, whole or broken off, a
bracket or a brace is malformed, whatever stands behind it. -/
def strayKey : Option Token → Fault
  | none => .truncated
  | some (.broken .string wanted _) => wanted
  | some _ => .malformed

/-! ## Reading -/

variable (body : κ → Body κ)

/-- Reads a choice where no object stands. Only strings are read through. -/
def readBareCase (cases : List (String × Option (Format κ))) : Outline → Except Fault Value
  | .string key =>
    match caseOf cases key with
    | .ok (name, none) => .ok (.string name)
    | .ok (_, some _) => .error .mismatched
    | .error fault => .error fault
  | .broken none => .error .truncated
  | .broken (some (.broken .string wanted _)) => .error wanted
  | _ => .error .malformed

def readLeaf (f : Format κ) (o : Outline) : Except Fault Value :=
  match f, o with
  | .text, .string (some s) => .ok (.string (String.ofList s))
  | .flag, .word .yes => .ok (.flag true)
  | .flag, .word .no => .ok (.flag false)
  | .integer low high, .number n =>
    match n.integer? with
    | some i => if low ≤ i ∧ i ≤ high then .ok (.integer i) else .error .mismatched
    | none => .error (Outline.number n).refusal
  | .double, .number n =>
    match n.toBinary64? with
    | some x => .ok (.double x)
    | none => .error .malformed
  | .named name, o =>
    match body name with
    | .choice cases => readBareCase cases o
    | .record _ => .error o.refusal
  | _, o => .error o.refusal

def readTexts (soFar : Keyed String) : Members → Except Fault (Keyed String)
  | .close => .ok soFar
  | .member none _ _ => .error .malformed
  | .member (some key) value rest =>
    match value with
    | .string (some s) => readTexts (soFar.insert (String.ofList key) (String.ofList s)) rest
    | other => .error other.refusal
  | .bare none _ => .error .malformed
  | .bare (some _) fault => .error fault
  | .stray found => .error (strayKey found)
  | .cut fault => .error fault

mutual

/-- Reads a value by a format. Of arrays and objects that are read, and not just passed over, at
most `depth` may lie inside each other. -/
def read (f : Format κ) (depth : Nat) : Outline → Except Fault Value
  | .array items =>
    match f with
    | .list item =>
      match depth with
      | 0 => .error .malformed
      | depth + 1 => (readItems item depth items).map .array
    | .pair first second =>
      match depth with
      | 0 => .error .malformed
      | depth + 1 =>
        (readRow [⟨"", first, .required⟩, ⟨"", second, .required⟩] depth items).map
          fun held => .array (held.filterMap id)
    | .named name =>
      match body name with
      | .record slots =>
        match depth with
        | 0 => .error .malformed
        | depth + 1 => (readRow slots depth items).map (recordValue slots)
      | .choice _ => .error .malformed
    | _ => .error .mismatched
  | .object members =>
    match f with
    | .texts =>
      match depth with
      | 0 => .error .malformed
      | _ + 1 =>
        (readTexts ∅ members).map fun m =>
          .object (m.entries.map fun e => (e.1, some (.string e.2)))
    | .named name =>
      match depth with
      | 0 => .error .malformed
      | depth + 1 =>
        match body name with
        | .record slots => (readMembers slots depth [] members).map (recordValue slots)
        | .choice cases => readCase cases depth members
    | _ => .error .mismatched
  | .word w => readLeaf body f (.word w)
  | .number n => readLeaf body f (.number n)
  | .string text => readLeaf body f (.string text)
  | .broken found => readLeaf body f (.broken found)

/-- Reads the rest of an array of any length. -/
def readItems (f : Format κ) (depth : Nat) : Items → Except Fault (List Value)
  | .close => .ok []
  | .item value rest =>
    match read f depth value with
    | .ok v => (readItems f depth rest).map (v :: ·)
    | .error fault => .error fault
  | .cut fault => .error fault

/-- Reads the rest of an array that fills the remaining slots. -/
def readRow (slots : List (Slot κ)) (depth : Nat) : Items → Except Fault (List (Option Value))
  | .close => settleAll slots []
  | .item value rest =>
    match slots with
    | [] => .error .malformed
    | slot :: more =>
      let held := match slot.presence.null? value with
        | some held => held
        | none => (read slot.format depth value).map some
      match held with
      | .ok v => (readRow more depth rest).map (v :: ·)
      | .error fault => .error fault
  | .cut fault => .error fault

/-- Reads the rest of an object that fills slots, after the members seen so far. -/
def readMembers (slots : List (Slot κ)) (depth : Nat) (seen : List (String × Option Value)) :
    Members → Except Fault (List (Option Value))
  | .close => settleAll slots seen
  | .member key value rest =>
    match claim slots seen key with
    | .error fault => .error fault
    | .ok none =>
      match value.skip with
      | .ok () => readMembers slots depth seen rest
      | .error fault => .error fault
    | .ok (some slot) =>
      let held := match slot.presence.null? value with
        | some held => held
        | none => (read slot.format depth value).map some
      match held with
      | .ok v => readMembers slots depth ((slot.key, v) :: seen) rest
      | .error fault => .error fault
  | .bare key fault =>
    match claim slots seen key with
    | .error fault => .error fault
    | .ok _ => .error fault
  | .stray found => .error (strayKey found)
  | .cut fault => .error fault

def readCase (cases : List (String × Option (Format κ))) (depth : Nat) :
    Members → Except Fault Value
  | .close => .error .malformed
  | .member key value rest =>
    match caseOf cases key with
    | .error fault => .error fault
    | .ok (name, none) =>
      match value with
      | .word .null => endChoice (.string name) rest
      | other => .error other.refusal
    | .ok (name, some f) =>
      match read f depth value with
      | .ok v => endChoice (.object [(name, some v)]) rest
      | .error fault => .error fault
  | .bare key fault =>
    match caseOf cases key with
    | .error fault => .error fault
    | .ok _ => .error fault
  | .stray found => .error (strayKey found)
  | .cut fault => .error fault

end

/-- How many arrays and objects of a document may lie inside each other. -/
def depthLimit : Nat := 127

def readText (f : Format κ) (text : List Char) : Except Fault Value :=
  let (outline, rest) := Outline.ofText text
  match read body f depthLimit outline with
  | .ok v => if rest.isEmpty then .ok v else .error .malformed
  | .error fault => .error fault

end IdlGen.Json
