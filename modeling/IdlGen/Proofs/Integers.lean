import IdlGen.Proofs.Json.IntegerLiterals
import IdlGen.Proofs.Json.Positions
import IdlGen.Proofs.Loading

/-!
# Integers in documents

Integers stand in few positions, each with a range (`integerRanges`). Whatever literal is put into such a
position of a text that can be loaded, it is loaded as the integer that it spells, with no digit changed, or
the text is refused.
-/

namespace IdlGen

open Json

/-- The members that hold integers, with the least and the greatest one. -/
def integerRanges : List (String × Int × Int) :=
  [("integer", -9223372036854775808, 9223372036854775807), ("id", -2147483648, 2147483647),
    ("value", -2147483648, 2147483647), ("bytes", 0, 18446744073709551615)]

namespace Json

variable {κ : Type}

/-! ### Where integers are asked for -/

/-- Whether integers stand in it under names of formats only. -/
def Format.integerFree : Format κ → Bool
  | .integer _ _ => false
  | .list item => item.integerFree
  | .pair first second => first.integerFree && second.integerFree
  | _ => true

/-- Whether what stands under a key is an integer with the range of the key, or holds none. -/
def Format.ranged (key : String) : Format κ → Bool
  | .integer low high => integerRanges.contains (key, low, high)
  | f => f.integerFree

def Body.ranged : Body κ → Bool
  | .record slots => slots.all fun slot => slot.format.ranged slot.key
  | .choice cases => cases.all fun c => c.2.all (·.ranged c.1)

theorem Format.of_ranged {key : String} {f : Format κ} (h : f.ranged key) :
    f.integerFree ∨ ∃ low high, f = .integer low high ∧ (key, low, high) ∈ integerRanges := by
  cases f with
  | integer low high => exact .inr ⟨low, high, rfl, List.contains_iff_mem.1 h⟩
  | text | flag | double | texts | list item | pair first second | named name => exact .inl h

variable {body : κ → Body κ}

theorem Frame.Asks.ranged (hbody : ∀ name, (body name).ranged) {frame : Frame} {f g : Format κ}
    {branch : Branch} (h : frame.Asks body f branch g) (hf : f.integerFree) :
    g.integerFree ∨
      ∃ key low high, branch = .member key ∧ g = .integer low high ∧ (key, low, high) ∈ integerRanges := by
  have hkey : ∀ {key : String}, g.ranged key → branch = .member key → g.integerFree ∨
      ∃ key low high, branch = .member key ∧ g = .integer low high ∧ (key, low, high) ∈ integerRanges := by
    intro key hranged hbranch
    exact (Format.of_ranged hranged).imp id fun ⟨low, high, hg, hmem⟩ => ⟨key, low, high, hbranch, hg, hmem⟩
  cases h with
  | @member name slots slot hslots before key hslot rest =>
    have hranged := hbody name
    rw [hslots] at hranged
    exact hkey (List.all_eq_true.1 hranged slot (List.mem_of_find?_eq_some hslot)) rfl
  | item _ before rest => exact .inl hf
  | first _ other rest => exact .inl (Bool.and_eq_true_iff.1 hf).1
  | second other _ before rest => exact .inl (Bool.and_eq_true_iff.1 hf).2
  | @row name slots slot hslots before hslot rest =>
    have hranged := hbody name
    rw [hslots] at hranged
    exact hkey (List.all_eq_true.1 hranged slot (List.mem_of_getElem? hslot)) rfl
  | @case name cases case _ hcases key hcase rest =>
    have hranged := hbody name
    rw [hcases] at hranged
    exact hkey (List.all_eq_true.1 hranged _ (List.mem_of_find?_eq_some hcase)) rfl

/-- Each place of an integer is one of a member that has a range. -/
theorem Leads.ranged (hbody : ∀ name, (body name).ranged) {frames : List Frame} {f : Format κ}
    {path : List Branch} {low high : Int} (h : Leads body frames f path (.integer low high))
    (hf : f.integerFree) :
    ∃ key, path.getLast? = some (.member key) ∧ (key, low, high) ∈ integerRanges := by
  generalize htarget : Format.integer low high = target at h
  induction h with
  | here f =>
    subst htarget
    cases hf
  | @inside frame frames f g target branch path hframe h ih =>
    rcases hframe.ranged hbody hf with hfree | ⟨key, low, high, rfl, rfl, hmem⟩
    · obtain ⟨key, hlast, hmem⟩ := ih hfree htarget
      exact ⟨key, by rw [List.getLast?_cons, hlast]; rfl, hmem⟩
    · cases h with
      | here =>
        obtain ⟨rfl, rfl⟩ := Format.integer.inj htarget
        exact ⟨key, rfl, hmem⟩
      | inside hframe h => cases hframe

end Json

theorem Schema.grammar_ranged (part : Part) : (grammar part).ranged := by
  cases part <;> decide

theorem Report.grammar_ranged (part : Part) : (grammar part).ranged := by
  cases part <;> decide

theorem SavedKind.grammar_ranged (k : SavedKind) (name : Document.Name k.Thing) :
    (Document.grammar (α := k.Thing) name).ranged := by
  cases k with
  | config => rfl
  | report | reportFile => exact Report.grammar_ranged name
  | _ => exact Schema.grammar_ranged name

theorem words_of_mem {key : String} {low high : Int} (h : (key, low, high) ∈ integerRanges) :
    -9223372036854775808 ≤ low ∧ high < 18446744073709551616 := by
  simp only [integerRanges, List.mem_cons, Prod.mk.injEq, List.not_mem_nil, or_false] at h
  omega

/-- Put any integer literal in the place of a number in a text that is loaded, where an integer is asked for.
This is the value of an integer constant, the id of a field, the value of a label or the size of a file, and
the text is loaded if the literal spells an integer in the range of these, which minus zero does not. The
integer that is loaded is the one that is spelled, and it is written with the same digits. -/
theorem loaded_integer_exact (k : SavedKind) {frames : List Frame} {path : List Branch} {low high : Int}
    (hposition : Leads Document.grammar frames (Document.format k.Thing) path (.integer low high))
    {text text' : String} {numeral : Numeral} {x : k.Thing} (l : IntegerLiteral)
    (hwrites : Writes text.toList (Outline.within (.number numeral) frames))
    (haccepted : Document.ofText text = .ok x) (hwrites' : Writes text'.toList (l.outline.within frames)) :
    (∃ key, path.getLast? = some (.member key) ∧ (key, low, high) ∈ integerRanges) ∧
      ((∃ x' : k.Thing, Document.ofText text' = .ok x') ↔
        ¬l.IsMinusZero ∧ low ≤ l.value ∧ l.value ≤ high) ∧
      ∀ x' : k.Thing, Document.ofText text' = .ok x' →
        (Document.toValue x').at? path = some (.integer l.value) ∧ (Value.integer l.value).compact = l.text := by
  obtain ⟨key, hlast, hmem⟩ := hposition.ranged k.grammar_ranged rfl
  obtain ⟨hlow, hhigh⟩ := words_of_mem hmem
  have hnumber : ∀ n, Outline.Present (.number n) := fun n presence => by cases presence <;> rfl
  have hliteral : l.outline.Present := hnumber _
  have hread := hwrites.readText_iff.1 (k.ofText_eq_ok_iff.1 haccepted)
  refine ⟨⟨key, hlast, hmem⟩, ?_, fun x' hx' => ?_⟩
  · obtain ⟨depth, hiff⟩ := hposition.read_iff (hnumber numeral) hliteral hread
    rw [k.exists_ofText_iff]
    simp only [hwrites'.readText_iff]
    refine hiff.trans ?_
    simp only [l.read_outline_iff hlow hhigh, exists_and_left, exists_eq, and_true]
  · have hread' := hwrites'.readText_iff.1 (k.ofText_eq_ok_iff.1 hx')
    obtain ⟨depth, w, hw, hplace⟩ := hposition.at?_of_read k.wellFormed hliteral hread'
    obtain ⟨hminus, -, rfl⟩ := (l.read_outline_iff hlow hhigh).1 hw
    exact ⟨hplace, IntegerLiteral.decimal_value hminus⟩

set_option maxRecDepth 10000 in
/-- The least id of a field, one that is too great, and minus zero. -/
theorem loaded_integer_exact_id :
    let declaring (id : String) :=
      "\x7b\"info\":\x7b\"name\":\"p\"\x7d,\"definitions\":[\x7b\"struct\":\x7b\"name\":\"S\",\"fields\":[" ++
        "\x7b\"id\":" ++ id ++ ",\"name\":\"f\",\"type\":\x7b\"base\":\"i32\"\x7d\x7d]\x7d\x7d]\x7d"
    let program (id : Int32) : Program :=
      { info := { name := "p" }
        definitions := [.record .struct { name := "S", fields := [{ id, name := "f", type := .base .i32 }] }] }
    let path : List Branch :=
      [.member "definitions", .item 0, .member "struct", .member "fields", .item 0, .member "id"]
    Document.ofText (declaring "7") = .ok (program 7) ∧
      (∃ x : Program, Document.ofText (declaring "-2147483648") = .ok x ∧
        (Document.toValue x).at? path = some (.integer (-2147483648))) ∧
      (¬∃ x : Program, Document.ofText (declaring "2147483648") = .ok x) ∧
      ¬∃ x : Program, Document.ofText (declaring "-0") = .ok x := by
  intro declaring program path
  let name (text : String) : Option (List Char) × Outline := (some "name".toList, .string (some text.toList))
  let info : Outline := .object (.behind [name "p"] .close)
  let base : Outline := .object (.behind [(some "base".toList, .string (some "i32".toList))] .close)
  let behind : Members := .behind [name "f", (some "type".toList, base)] .close
  let frames : List Frame :=
    [.member [(some "info".toList, info)] "definitions".toList .close, .item [] .close,
      .member [] "struct".toList .close, .member [name "S"] "fields".toList .close, .item [] .close,
      .member [] "id".toList behind]
  let definitionsSlot := Schema.many "definitions" .definition
  let fieldsSlot := Schema.many "fields" .field
  let idSlot := Schema.must "id" Schema.word32
  have hdefinitions : Frame.Asks Schema.grammar (.member [(some "info".toList, info)] "definitions".toList .close)
      (.named .program) (.member definitionsSlot.key) definitionsSlot.format := .member rfl _ rfl _
  have hfields : Frame.Asks Schema.grammar (.member [name "S"] "fields".toList .close) (.named .record)
      (.member fieldsSlot.key) fieldsSlot.format := .member rfl _ rfl _
  have hid : Frame.Asks Schema.grammar (.member [] "id".toList behind) (.named .field) (.member idSlot.key)
      idSlot.format := .member rfl _ rfl _
  have hposition : Leads Schema.grammar frames (.named .program) path Schema.word32 :=
    .inside hdefinitions <| .inside (.item _ _ _) <| .inside (.case rfl rfl _) <| .inside hfields <|
      .inside (.item _ _ _) <| .inside hid <| .here _
  have hwrites {id : String} {n : Numeral}
      (h : Token.scan (declaring id).toList = (Outline.within (.number n) frames).tokens) :
      Writes (declaring id).toList (Outline.within (.number n) frames) :=
    writes_of_scan ⟨⟨trivial, trivial⟩, ⟨⟨⟨trivial, ⟨⟨trivial, trivial, ⟨trivial, trivial⟩, trivial⟩, trivial⟩,
      trivial⟩, trivial⟩, trivial⟩, trivial⟩ h
  have hseven : Writes (declaring "7").toList (Outline.within (.number ⟨false, ['7'], [], none⟩) frames) :=
    hwrites (by decide +kernel)
  have hread : Document.ofText (declaring "7") = .ok (program 7) :=
    SavedKind.program.ofText_eq_ok_iff.2 (hseven.readText_iff.2 rfl)
  -- The literals, and the texts that have them for the id.
  let least : IntegerLiteral := ⟨true, "2147483648".toList, ⟨by decide, List.all_eq_true.1 rfl⟩, by decide⟩
  let great : IntegerLiteral := ⟨false, "2147483648".toList, ⟨by decide, List.all_eq_true.1 rfl⟩, by decide⟩
  let zero : IntegerLiteral := ⟨true, ['0'], ⟨by decide, List.all_eq_true.1 rfl⟩, by decide⟩
  have hwritesLeast : Writes (declaring "-2147483648").toList
      (Outline.within (.number ⟨true, "2147483648".toList, [], none⟩) frames) := hwrites (by decide +kernel)
  have hwritesGreat : Writes (declaring "2147483648").toList
      (Outline.within (.number ⟨false, "2147483648".toList, [], none⟩) frames) := hwrites (by decide +kernel)
  have hwritesZero : Writes (declaring "-0").toList
      (Outline.within (.number ⟨true, ['0'], [], none⟩) frames) := hwrites (by decide +kernel)
  obtain ⟨-, hleast, hplace⟩ := loaded_integer_exact .program hposition least hseven hread hwritesLeast
  obtain ⟨-, hgreat, -⟩ := loaded_integer_exact .program hposition great hseven hread hwritesGreat
  obtain ⟨-, hzero, -⟩ := loaded_integer_exact .program hposition zero hseven hread hwritesZero
  obtain ⟨x, hx⟩ := hleast.2 (by decide)
  refine ⟨hread, ⟨x, hx, (hplace x hx).1⟩, fun h => ?_, fun h => ?_⟩
  · exact absurd (hgreat.1 h) (by decide)
  · exact absurd (hzero.1 h) (by decide)

end IdlGen
