import IdlGen.Lisp.Typespec
import IdlGen.Proofs.Schema.Induction

/-!
# What a typespec tells of a type

The shape of a type is what is left when typedefs give way to their targets and of enums and records only
their names are kept. A typespec is the shape in letters. It can be read in one way only, also with more
text behind it: the word after a parenthesis tells the kind, a name ends at its quote, and a base type at the
first character that is neither letter nor digit. So types have one typespec exactly if they have one shape.
-/

namespace IdlGen.Lisp

inductive Shape where
  | base (b : BaseType)
  | enum (name : String)
  /-- Structs and exceptions alike, by their names as the current program refers to them. -/
  | record (name : String)
  | list (element : Shape)
  | set (element : Shape)
  | map (key value : Shape)
  deriving DecidableEq

/-- The shape of a type, as the current program sees it. -/
def shape (current : ProgramInfo) : Ty → Shape
  | .base b => .base b
  | .enum d => .enum d.name
  | .record _ d => .record (recordName d current)
  | .list element => .list (shape current element)
  | .set element => .set (shape current element)
  | .map key value => .map (shape current key) (shape current value)
  | .typedef ⟨_, _, target, _⟩ => shape current target

namespace Shape

/-- No name has a double quote in it. -/
def Unquoted : Shape → Prop
  | base _ => True
  | enum name | record name => '"' ∉ name.toList
  | list element | set element => element.Unquoted
  | map key value => key.Unquoted ∧ value.Unquoted

instance decidableUnquoted : DecidablePred Unquoted
  | base _ => inferInstanceAs (Decidable True)
  | enum name | record name => inferInstanceAs (Decidable ('"' ∉ name.toList))
  | list element | set element => decidableUnquoted element
  | map key value =>
    have := decidableUnquoted key
    have := decidableUnquoted value
    inferInstanceAs (Decidable (key.Unquoted ∧ value.Unquoted))

/-- In parentheses, a word and what it is said of. -/
def form (word : String) (content : List Char) : List Char := '(' :: word.toList ++ ' ' :: content ++ [')']

def quoted (name : String) : List Char := '"' :: name.toList ++ ['"']

def letters : Shape → List Char
  | base b => b.name.toList
  | enum name => form "enum" (quoted name)
  | record name => form "struct" (quoted name)
  | list element => form "list" element.letters
  | set element => form "set" element.letters
  | map key value => form "map" (key.letters ++ ' ' :: value.letters)

end Shape

theorem toList_typespec (current : ProgramInfo) (t : Ty) :
    (typespec current t).toList = (shape current t).letters := by
  induction t with
  | base b => rfl
  | enum d => simp [typespec, symbol, shape, Shape.letters, Shape.form, Shape.quoted]
  | record kind d =>
    rw [typespec, shape]
    simp [symbol, Shape.letters, Shape.form, Shape.quoted]
  | list element ih => simp [typespec, shape, Shape.letters, Shape.form, ih]
  | set element ih => simp [typespec, shape, Shape.letters, Shape.form, ih]
  | map key value ihKey ihValue => simp [typespec, shape, Shape.letters, Shape.form, ihKey, ihValue]
  | typedef d ih => exact ih

/-! ### One way to read -/

/-- Up to the first character of some kind, a text can be cut in one way. -/
theorem append_cons_inj {c : Char} {a b x y : List Char} (ha : c ∉ a) (hb : c ∉ b)
    (h : a ++ c :: x = b ++ c :: y) : a = b ∧ x = y := by
  induction a generalizing b with
  | nil =>
    cases b with
    | nil => exact ⟨rfl, (List.cons.inj h).2⟩
    | cons d b =>
      obtain ⟨rfl, -⟩ := List.cons.inj h
      exact absurd List.mem_cons_self hb
  | cons d a ih =>
    cases b with
    | nil =>
      obtain ⟨rfl, -⟩ := List.cons.inj h
      exact absurd List.mem_cons_self ha
    | cons d' b =>
      obtain ⟨rfl, hrest⟩ := List.cons.inj h
      obtain ⟨rfl, hxy⟩ :=
        ih (fun hmem => ha (List.mem_cons_of_mem _ hmem)) (fun hmem => hb (List.mem_cons_of_mem _ hmem)) hrest
      exact ⟨rfl, hxy⟩

/-- A word ends in front of this text. -/
def EndsWord (rest : List Char) : Prop := ∀ c ∈ rest.head?, c.isAlphanum = false

theorem endsWord_nil : EndsWord [] := fun _ hmem => nomatch hmem

theorem endsWord_cons {c : Char} {rest : List Char} (hc : c.isAlphanum = false) : EndsWord (c :: rest) :=
  fun _ hmem => Option.some.inj hmem ▸ hc

theorem takeWhile_baseName (b : BaseType) {rest : List Char} (hrest : EndsWord rest) :
    (b.name.toList ++ rest).takeWhile Char.isAlphanum = b.name.toList := by
  have hname : b.name.toList.all Char.isAlphanum = true := by
    cases b <;> decide
  rw [List.takeWhile_append_of_pos (List.all_eq_true.1 hname)]
  have hnone : rest.takeWhile Char.isAlphanum = [] := by
    cases rest with
    | nil => rfl
    | cons c rest => exact List.takeWhile_cons_of_neg (by simp [hrest c rfl])
  rw [hnone, List.append_nil]

theorem baseName_inj {b b' : BaseType} (h : b.name = b'.name) : b = b' := by
  revert h
  cases b <;> cases b' <;> decide

theorem baseName_head (b : BaseType) (rest : List Char) :
    ∃ c more, c ≠ '(' ∧ b.name.toList ++ rest = c :: more := by
  cases b <;> exact ⟨_, _, by decide, rfl⟩

namespace Shape

theorem form_inj {word word' : String} {content content' rest rest' : List Char}
    (hword : ' ' ∉ word.toList) (hword' : ' ' ∉ word'.toList)
    (h : form word content ++ rest = form word' content' ++ rest') :
    word = word' ∧ content ++ ')' :: rest = content' ++ ')' :: rest' := by
  simp only [form, List.cons_append, List.append_assoc, List.nil_append, List.cons.injEq, true_and] at h
  obtain ⟨hwords, hcontents⟩ := append_cons_inj hword hword' h
  exact ⟨String.toList_inj.1 hwords, hcontents⟩

theorem quoted_inj {name name' : String} {rest rest' : List Char} (hname : '"' ∉ name.toList)
    (hname' : '"' ∉ name'.toList) (h : quoted name ++ rest = quoted name' ++ rest') :
    name = name' ∧ rest = rest' := by
  simp only [quoted, List.cons_append, List.append_assoc, List.nil_append, List.cons.injEq, true_and] at h
  obtain ⟨hnames, hrests⟩ := append_cons_inj hname hname' h
  exact ⟨String.toList_inj.1 hnames, hrests⟩

theorem base_ne_form {b : BaseType} {word : String} {content rest rest' : List Char}
    (h : b.name.toList ++ rest = form word content ++ rest') : False := by
  obtain ⟨c, more, hc, hmore⟩ := baseName_head b rest
  rw [hmore] at h
  exact hc (List.cons.inj h).1

theorem base_inj {b b' : BaseType} {rest rest' : List Char} (hrest : EndsWord rest) (hrest' : EndsWord rest')
    (h : b.name.toList ++ rest = b'.name.toList ++ rest') : b = b' ∧ rest = rest' := by
  have hnames : b.name.toList = b'.name.toList := by
    rw [← takeWhile_baseName b hrest, h, takeWhile_baseName b' hrest']
  rw [hnames] at h
  exact ⟨baseName_inj (String.toList_inj.1 hnames), List.append_cancel_left h⟩

/-- Two shapes that start a text, each at the end of a word, are the same and end at the same place. -/
theorem letters_inj {s s' : Shape} (hs : s.Unquoted) (hs' : s'.Unquoted) {rest rest' : List Char}
    (hrest : EndsWord rest) (hrest' : EndsWord rest') (h : s.letters ++ rest = s'.letters ++ rest') :
    s = s' ∧ rest = rest' := by
  have hclose (more : List Char) : EndsWord (')' :: more) := endsWord_cons rfl
  have hspace (more : List Char) : EndsWord (' ' :: more) := endsWord_cons rfl
  induction s generalizing s' rest rest' with
  | base b =>
    cases s' with
    | base b' =>
      obtain ⟨rfl, rfl⟩ := base_inj hrest hrest' h
      exact ⟨rfl, rfl⟩
    | enum _ | record _ | list _ | set _ | map _ _ => exact (base_ne_form h).elim
  | enum name =>
    cases s' with
    | enum name' =>
      obtain ⟨-, hcontent⟩ := form_inj (by decide) (by decide) h
      obtain ⟨rfl, hbehind⟩ := quoted_inj hs hs' hcontent
      exact ⟨rfl, (List.cons.inj hbehind).2⟩
    | base _ => exact (base_ne_form h.symm).elim
    | record _ | list _ | set _ | map _ _ =>
      exact absurd (form_inj (by decide) (by decide) h).1 (by decide)
  | record name =>
    cases s' with
    | record name' =>
      obtain ⟨-, hcontent⟩ := form_inj (by decide) (by decide) h
      obtain ⟨rfl, hbehind⟩ := quoted_inj hs hs' hcontent
      exact ⟨rfl, (List.cons.inj hbehind).2⟩
    | base _ => exact (base_ne_form h.symm).elim
    | enum _ | list _ | set _ | map _ _ =>
      exact absurd (form_inj (by decide) (by decide) h).1 (by decide)
  | list element ih =>
    cases s' with
    | list element' =>
      obtain ⟨-, hcontent⟩ := form_inj (by decide) (by decide) h
      obtain ⟨rfl, hbehind⟩ := ih hs (show element'.Unquoted from hs') (hclose rest) (hclose rest') hcontent
      exact ⟨rfl, (List.cons.inj hbehind).2⟩
    | base _ => exact (base_ne_form h.symm).elim
    | enum _ | record _ | set _ | map _ _ =>
      exact absurd (form_inj (by decide) (by decide) h).1 (by decide)
  | set element ih =>
    cases s' with
    | set element' =>
      obtain ⟨-, hcontent⟩ := form_inj (by decide) (by decide) h
      obtain ⟨rfl, hbehind⟩ := ih hs (show element'.Unquoted from hs') (hclose rest) (hclose rest') hcontent
      exact ⟨rfl, (List.cons.inj hbehind).2⟩
    | base _ => exact (base_ne_form h.symm).elim
    | enum _ | record _ | list _ | map _ _ =>
      exact absurd (form_inj (by decide) (by decide) h).1 (by decide)
  | map key value ihKey ihValue =>
    cases s' with
    | map key' value' =>
      obtain ⟨-, hcontent⟩ := form_inj (by decide) (by decide) h
      simp only [List.append_assoc, List.cons_append] at hcontent
      obtain ⟨rfl, hbehindKey⟩ := ihKey hs.1 hs'.1 (hspace _) (hspace _) hcontent
      obtain ⟨rfl, hbehind⟩ :=
        ihValue hs.2 hs'.2 (hclose rest) (hclose rest') (List.cons.inj hbehindKey).2
      exact ⟨rfl, (List.cons.inj hbehind).2⟩
    | base _ => exact (base_ne_form h.symm).elim
    | enum _ | record _ | list _ | set _ =>
      exact absurd (form_inj (by decide) (by decide) h).1 (by decide)

end Shape

/-! ### Types and their typespecs -/

/-- What a type is expressed as, read off its true type at every level. There is no expression for a true
type that is a typedef. -/
inductive Expresses (current : ProgramInfo) : Ty → String → Prop
  | base {t : Ty} {b : BaseType} (htrue : t.trueType = .base b) : Expresses current t b.name
  | enum {t : Ty} {d : EnumDef} (htrue : t.trueType = .enum d) :
      Expresses current t ("(enum " ++ symbol d.name ++ ")")
  | record {t : Ty} {kind : RecordKind} {d : Record} (htrue : t.trueType = .record kind d) :
      Expresses current t ("(struct " ++ symbol (recordName d current) ++ ")")
  | list {t element : Ty} {s : String} (htrue : t.trueType = .list element)
      (helement : Expresses current element s) : Expresses current t ("(list " ++ s ++ ")")
  | set {t element : Ty} {s : String} (htrue : t.trueType = .set element)
      (helement : Expresses current element s) : Expresses current t ("(set " ++ s ++ ")")
  | map {t key value : Ty} {s s' : String} (htrue : t.trueType = .map key value)
      (hkey : Expresses current key s) (hvalue : Expresses current value s') :
      Expresses current t ("(map " ++ s ++ " " ++ s' ++ ")")

theorem typespec_trueType (current : ProgramInfo) (t : Ty) :
    typespec current t.trueType = typespec current t := by
  induction t with
  | typedef d ih =>
    rw [Ty.trueType_typedef]
    exact ih
  | base b | enum d | record kind d | list element | set element | map key value => rfl

/-- A typedef is expressed as its target is. -/
theorem Expresses.typedef {current : ProgramInfo} {d : Typedef} {s : String}
    (h : Expresses current d.target s) : Expresses current (.typedef d) s := by
  have htrue := Ty.trueType_typedef d
  cases h with
  | base h => exact .base (htrue.trans h)
  | enum h => exact .enum (htrue.trans h)
  | record h => exact .record (htrue.trans h)
  | list h helement => exact .list (htrue.trans h) helement
  | set h helement => exact .set (htrue.trans h) helement
  | map h hkey hvalue => exact .map (htrue.trans h) hkey hvalue

theorem expresses_typespec (current : ProgramInfo) (t : Ty) : Expresses current t (typespec current t) := by
  induction t with
  | base b => exact .base rfl
  | enum d => exact .enum rfl
  | record kind d => exact .record rfl
  | list element ih => exact .list rfl ih
  | set element ih => exact .set rfl ih
  | map key value ihKey ihValue => exact .map rfl ihKey ihValue
  | typedef d ih => exact ih.typedef

theorem Expresses.eq_typespec {current : ProgramInfo} {t : Ty} {s : String} (h : Expresses current t s) :
    s = typespec current t := by
  induction h with
  | base htrue | enum htrue | record htrue =>
    rw [← typespec_trueType, htrue]
    rfl
  | list htrue _ ih | set htrue _ ih =>
    rw [← typespec_trueType, htrue, ih]
    rfl
  | map htrue _ _ ihKey ihValue =>
    rw [← typespec_trueType, htrue, ihKey, ihValue]
    rfl

/-- Every type is expressed, and only as its typespec; and two types whose names have no quote in them have
one typespec exactly if they have one shape. -/
theorem typespec_unambiguous (current : ProgramInfo) :
    (∀ t s, Expresses current t s ↔ s = typespec current t) ∧
    ∀ t u : Ty, (shape current t).Unquoted → (shape current u).Unquoted →
      (typespec current t = typespec current u ↔ shape current t = shape current u) := by
  refine ⟨fun t s => ⟨fun h => h.eq_typespec, fun h => h ▸ expresses_typespec current t⟩,
    fun t u ht hu => ⟨fun h => ?_, fun h => ?_⟩⟩
  · have hletters : (shape current t).letters ++ [] = (shape current u).letters ++ [] := by
      rw [← toList_typespec, ← toList_typespec, h]
    exact (Shape.letters_inj ht hu endsWord_nil endsWord_nil hletters).1
  · rw [← String.toList_inj, toList_typespec, toList_typespec, h]

/-- Shades of paint by the room, with a name that looks like the end of a typespec. -/
def shadesByRoom : Ty :=
  .map (.record .struct { name := "Room (any)", owner := some { name := "house" } })
    (.list (.enum { name := "Shade) (set i32" }))

/-- The same through typedefs and with an exception. -/
def paintPlan : Ty :=
  .typedef
    { name := "Plan"
      target :=
        .map (.record .exception { name := "ROOM (any)" })
          (.typedef { name := "Shades", target := .list (.enum { name := "Shade) (set i32" }) }) }

theorem typespec_unambiguous_paint :
    (shape { name := "paint" } shadesByRoom).Unquoted ∧ (shape { name := "paint" } paintPlan).Unquoted ∧
    (typespec { name := "paint" } shadesByRoom = typespec { name := "paint" } paintPlan ∧
      shape { name := "paint" } shadesByRoom = shape { name := "paint" } paintPlan) ∧
    typespec { name := "paint" } (.set shadesByRoom) ≠ typespec { name := "paint" } (.list paintPlan) := by
  have hrooms : (shape { name := "paint" } shadesByRoom).Unquoted := by decide +kernel
  have hplan : (shape { name := "paint" } paintPlan).Unquoted := by decide +kernel
  have hsame : shape { name := "paint" } shadesByRoom = shape { name := "paint" } paintPlan := by
    decide +kernel
  refine ⟨hrooms, hplan, ⟨((typespec_unambiguous _).2 _ _ hrooms hplan).2 hsame, hsame⟩, fun h => ?_⟩
  have hshapes := ((typespec_unambiguous _).2 (.set shadesByRoom) (.list paintPlan) hrooms hplan).1 h
  cases hshapes

end IdlGen.Lisp
