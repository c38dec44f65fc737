import IdlGen.Proofs.Json.Fitting
import IdlGen.Proofs.Schema.Documents
import Mathlib.Data.Set.List

/-!
# Values of saved parts

A value that fits a format is saved of something, and of one thing only. So no value that reading gives is
lost on the way to the part of a program that it stands for.
-/

namespace IdlGen

open Json

namespace Schema

/-- The things of a part. -/
abbrev Part.Thing : Part → Type
  | .info => ProgramInfo
  | .program => Program
  | .definition => Definition
  | .typedef => Typedef
  | .enumDef => EnumDef
  | .enumLabel => EnumLabel
  | .record => Record
  | .field => Field
  | .service => Service
  | .method => Method
  | .constant => Constant
  | .baseType => BaseType
  | .type => Ty
  | .literal => Literal

def Part.toValue : (part : Part) → part.Thing → Value
  | .info => ProgramInfo.toValue
  | .program => Program.toValue
  | .definition => Definition.toValue
  | .typedef => Ty.typedefToValue
  | .enumDef => EnumDef.toValue
  | .enumLabel => EnumLabel.toValue
  | .record => Ty.recordToValue
  | .field => Ty.fieldToValue
  | .service => Service.toValue
  | .method => Method.toValue
  | .constant => Constant.toValue
  | .baseType => BaseType.toValue
  | .type => Ty.toValue
  | .literal => Literal.toValue

/-- The value is saved of something of the format. -/
def Saved : Format Part → Value → Prop
  | .text, v => ∃ s, .string s = v
  | .flag, v => ∃ b, .flag b = v
  | .integer low high, v => ∃ n, (low ≤ n ∧ n ≤ high) ∧ .integer n = v
  | .double, v => ∃ x, .double x = v
  | .texts, v => ∃ m : Keyed String, .object (m.entries.map fun e => (e.1, some (.string e.2))) = v
  | .list f, v => ∃ items, (∀ item ∈ items, Saved f item) ∧ .array items = v
  | .pair first second, v => ∃ a b, Saved first a ∧ Saved second b ∧ .array [a, b] = v
  | .named part, v => ∃ x : part.Thing, part.toValue x = v

/-- What a slot holds is saved of something, if it holds anything. -/
def SavedSlot (slot : Slot Part) (held : Option Value) : Prop :=
  (held = none → slot.presence = .optional) ∧ ∀ v, held = some v → Saved slot.format v

/-! ### Slots -/

section Slots

variable {slot : Slot Part} {key : String} {f : Format Part} {held : Option Value}

theorem SavedSlot.given (h : SavedSlot slot held) (hpresence : slot.presence ≠ .optional) :
    ∃ v, held = some v ∧ Saved slot.format v := by
  cases held with
  | none => exact absurd (h.1 rfl) hpresence
  | some v => exact ⟨v, rfl, h.2 v rfl⟩

theorem exists_map {α : Type} {toValue : α → Value} (h : ∀ v, held = some v → ∃ a, toValue a = v) :
    ∃ a : Option α, held = a.map toValue := by
  cases held with
  | none => exact ⟨none, rfl⟩
  | some v =>
    obtain ⟨a, rfl⟩ := h v rfl
    exact ⟨some a, rfl⟩

theorem SavedSlot.part {part : Part} (h : SavedSlot (may key (.named part)) held) :
    ∃ x : Option part.Thing, held = x.map part.toValue := exists_map h.2

theorem SavedSlot.name (h : SavedSlot nameSlot held) : ∃ name, held = some (.string name) := by
  obtain ⟨_, rfl, name, rfl⟩ := h.given Presence.noConfusion
  exact ⟨name, rfl⟩

theorem SavedSlot.doc (h : SavedSlot docSlot held) : ∃ doc : Option String, held = doc.map .string :=
  exists_map h.2

theorem SavedSlot.must {part : Part} (h : SavedSlot (must key (.named part)) held) :
    ∃ x : part.Thing, held = some (part.toValue x) := by
  obtain ⟨_, rfl, x, rfl⟩ := h.given Presence.noConfusion
  exact ⟨x, rfl⟩

theorem exists_list {part : Part} {items : List Value} (h : ∀ item ∈ items, Saved (.named part) item) :
    ∃ l : List part.Thing, l.map part.toValue = items := by
  rwa [← Set.mem_range, Set.range_list_map]

theorem SavedSlot.many {part : Part} (h : SavedSlot (many key part) held) :
    ∃ l : List part.Thing, held = some (.array (l.map part.toValue)) := by
  obtain ⟨_, rfl, items, hitems, rfl⟩ := h.given Presence.noConfusion
  obtain ⟨l, rfl⟩ := exists_list hitems
  exact ⟨l, rfl⟩

theorem exists_word32 {v : Value} (h : Saved word32 v) : ∃ n : Int32, .integer n.toInt = v := by
  obtain ⟨n, ⟨hlow, hhigh⟩, rfl⟩ := h
  exact ⟨.ofInt n, by rw [Int32.toInt_ofInt_of_le (by omega) (by omega)]⟩

theorem exists_word64 {v : Value} (h : Saved word64 v) : ∃ n : Int64, .integer n.toInt = v := by
  obtain ⟨n, ⟨hlow, hhigh⟩, rfl⟩ := h
  exact ⟨.ofInt n, by rw [Int64.toInt_ofInt_of_le (by omega) (by omega)]⟩

end Slots

/-! ### Records -/

section Records

variable {held : List (Option Value)}

theorem saved_info (h : List.Forall₂ SavedSlot infoSlots held) :
    Saved (.named .info) (recordValue infoSlots held) := by
  rcases h with _ | ⟨hname, _ | ⟨hnamespaces, _ | _⟩⟩
  obtain ⟨name, rfl⟩ := hname.name
  obtain ⟨_, rfl, namespaces, rfl⟩ := hnamespaces.given Presence.noConfusion
  exact ⟨⟨name, namespaces⟩, rfl⟩

theorem saved_program (h : List.Forall₂ SavedSlot programSlots held) :
    Saved (.named .program) (recordValue programSlots held) := by
  rcases h with _ | ⟨hinfo, _ | ⟨hincludes, _ | ⟨hdefinitions, _ | _⟩⟩⟩
  obtain ⟨info, rfl⟩ := hinfo.must
  obtain ⟨includes, rfl⟩ := hincludes.many
  obtain ⟨definitions, rfl⟩ := hdefinitions.many
  exact ⟨⟨info, includes, definitions⟩, rfl⟩

theorem saved_typedef (h : List.Forall₂ SavedSlot typedefSlots held) :
    Saved (.named .typedef) (recordValue typedefSlots held) := by
  rcases h with _ | ⟨hname, _ | ⟨howner, _ | ⟨htarget, _ | ⟨hdoc, _ | _⟩⟩⟩⟩
  obtain ⟨name, rfl⟩ := hname.name
  obtain ⟨owner, rfl⟩ := howner.part
  obtain ⟨target, rfl⟩ := htarget.must
  obtain ⟨doc, rfl⟩ := hdoc.doc
  exact ⟨(⟨name, owner, target, doc⟩ : Typedef), rfl⟩

theorem saved_enumDef (h : List.Forall₂ SavedSlot enumSlots held) :
    Saved (.named .enumDef) (recordValue enumSlots held) := by
  rcases h with _ | ⟨hname, _ | ⟨howner, _ | ⟨hlabels, _ | ⟨hdoc, _ | _⟩⟩⟩⟩
  obtain ⟨name, rfl⟩ := hname.name
  obtain ⟨owner, rfl⟩ := howner.part
  obtain ⟨labels, rfl⟩ := hlabels.many
  obtain ⟨doc, rfl⟩ := hdoc.doc
  exact ⟨⟨name, owner, labels, doc⟩, rfl⟩

theorem saved_enumLabel (h : List.Forall₂ SavedSlot labelSlots held) :
    Saved (.named .enumLabel) (recordValue labelSlots held) := by
  rcases h with _ | ⟨hname, _ | ⟨hvalue, _ | _⟩⟩
  obtain ⟨name, rfl⟩ := hname.name
  obtain ⟨value, rfl⟩ := exists_map fun v hv => exists_word32 (hvalue.2 v hv)
  exact ⟨⟨name, value⟩, rfl⟩

theorem saved_record (h : List.Forall₂ SavedSlot recordSlots held) :
    Saved (.named .record) (recordValue recordSlots held) := by
  rcases h with _ | ⟨hname, _ | ⟨howner, _ | ⟨hfields, _ | ⟨hdoc, _ | _⟩⟩⟩⟩
  obtain ⟨name, rfl⟩ := hname.name
  obtain ⟨owner, rfl⟩ := howner.part
  obtain ⟨fields, rfl⟩ := hfields.many
  obtain ⟨doc, rfl⟩ := hdoc.doc
  refine ⟨(⟨name, owner, fields, doc⟩ : Record), ?_⟩
  change Ty.recordToValue _ = _
  rw [Ty.recordToValue, fieldsToValues_eq_map]
  rfl

theorem saved_field (h : List.Forall₂ SavedSlot fieldSlots held) :
    Saved (.named .field) (recordValue fieldSlots held) := by
  rcases h with _ | ⟨hid, _ | ⟨hname, _ | ⟨htype, _ | ⟨hdefault, _ | ⟨hdoc, _ | _⟩⟩⟩⟩⟩
  obtain ⟨_, rfl, hword⟩ := hid.given Presence.noConfusion
  obtain ⟨id, rfl⟩ := exists_word32 hword
  obtain ⟨name, rfl⟩ := hname.name
  obtain ⟨type, rfl⟩ := htype.must
  obtain ⟨default, rfl⟩ := hdefault.part
  obtain ⟨doc, rfl⟩ := hdoc.doc
  exact ⟨(⟨id, name, type, default, doc⟩ : Field), rfl⟩

theorem saved_service (h : List.Forall₂ SavedSlot serviceSlots held) :
    Saved (.named .service) (recordValue serviceSlots held) := by
  rcases h with _ | ⟨hname, _ | ⟨howner, _ | ⟨hbase, _ | ⟨hmethods, _ | ⟨hdoc, _ | _⟩⟩⟩⟩⟩
  obtain ⟨name, rfl⟩ := hname.name
  obtain ⟨owner, rfl⟩ := howner.part
  obtain ⟨base, rfl⟩ := hbase.part
  obtain ⟨methods, rfl⟩ := hmethods.many
  obtain ⟨doc, rfl⟩ := hdoc.doc
  refine ⟨⟨name, owner, base, methods, doc⟩, ?_⟩
  cases base <;> rfl

theorem saved_method (h : List.Forall₂ SavedSlot methodSlots held) :
    Saved (.named .method) (recordValue methodSlots held) := by
  rcases h with
    _ | ⟨hname, _ | ⟨hargs, _ | ⟨hreturns, _ | ⟨hexceptions, _ | ⟨honeway, _ | ⟨hdoc, _ | _⟩⟩⟩⟩⟩⟩
  obtain ⟨name, rfl⟩ := hname.name
  obtain ⟨args, rfl⟩ := hargs.many
  obtain ⟨returns, rfl⟩ := hreturns.must
  obtain ⟨exceptions, rfl⟩ := hexceptions.many
  obtain ⟨_, rfl, oneway, rfl⟩ := honeway.given Presence.noConfusion
  obtain ⟨doc, rfl⟩ := hdoc.doc
  refine ⟨⟨name, args, returns, exceptions, oneway, doc⟩, ?_⟩
  change Method.toValue _ = _
  rw [Method.toValue, fieldsToValues_eq_map, fieldsToValues_eq_map]
  rfl

theorem saved_constant (h : List.Forall₂ SavedSlot constantSlots held) :
    Saved (.named .constant) (recordValue constantSlots held) := by
  rcases h with _ | ⟨hname, _ | ⟨htype, _ | ⟨hvalue, _ | ⟨hdoc, _ | _⟩⟩⟩⟩
  obtain ⟨name, rfl⟩ := hname.name
  obtain ⟨type, rfl⟩ := htype.must
  obtain ⟨value, rfl⟩ := hvalue.must
  obtain ⟨doc, rfl⟩ := hdoc.doc
  exact ⟨⟨name, type, value, doc⟩, rfl⟩

/-- A record whose slots hold what is saved is saved itself. -/
theorem saved_of_slots {part : Part} {slots : List (Slot Part)} (hpart : grammar part = .record slots)
    (h : List.Forall₂ SavedSlot slots held) : Saved (.named part) (recordValue slots held) := by
  cases part with
  | definition | baseType | type | literal => cases hpart
  | info =>
    obtain rfl := Body.record.inj hpart
    exact saved_info h
  | program =>
    obtain rfl := Body.record.inj hpart
    exact saved_program h
  | typedef =>
    obtain rfl := Body.record.inj hpart
    exact saved_typedef h
  | enumDef =>
    obtain rfl := Body.record.inj hpart
    exact saved_enumDef h
  | enumLabel =>
    obtain rfl := Body.record.inj hpart
    exact saved_enumLabel h
  | record =>
    obtain rfl := Body.record.inj hpart
    exact saved_record h
  | field =>
    obtain rfl := Body.record.inj hpart
    exact saved_field h
  | service =>
    obtain rfl := Body.record.inj hpart
    exact saved_service h
  | method =>
    obtain rfl := Body.record.inj hpart
    exact saved_method h
  | constant =>
    obtain rfl := Body.record.inj hpart
    exact saved_constant h

end Records

/-! ### Choices -/

theorem exists_items {items : List Value} (h : ∀ item ∈ items, Saved (.named .literal) item) :
    ∃ l : List Literal, items = Literal.itemsToValues l := by
  induction items with
  | nil => exact ⟨[], rfl⟩
  | cons item items ih =>
    obtain ⟨⟨x, rfl⟩, hmore⟩ := List.forall_mem_cons.1 h
    obtain ⟨l, rfl⟩ := ih hmore
    exact ⟨x :: l, rfl⟩

theorem exists_entries {entries : List Value}
    (h : ∀ entry ∈ entries, Saved (.pair (.named .literal) (.named .literal)) entry) :
    ∃ l : List (Literal × Literal), entries = Literal.entriesToValues l := by
  induction entries with
  | nil => exact ⟨[], rfl⟩
  | cons entry entries ih =>
    obtain ⟨⟨_, _, ⟨key, rfl⟩, ⟨value, rfl⟩, rfl⟩, hmore⟩ := List.forall_mem_cons.1 h
    obtain ⟨l, rfl⟩ := ih hmore
    exact ⟨(key, value) :: l, rfl⟩

theorem saved_bare {part : Part} {cases : List (String × Option (Format Part))} {key : String}
    (hpart : grammar part = .choice cases) (hcase : (key, none) ∈ cases) :
    Saved (.named part) (.string key) := by
  cases part with
  | baseType =>
    obtain rfl := Body.choice.inj hpart
    obtain ⟨name, hname, hkey⟩ := List.mem_map.1 hcase
    obtain rfl := (Prod.mk.inj hkey).1
    have hnames : name ∈ BaseType.all.map BaseType.name := hname
    obtain ⟨b, -, rfl⟩ := List.mem_map.1 hnames
    exact ⟨b, rfl⟩
  | definition | type | literal =>
    obtain rfl := Body.choice.inj hpart
    simp [definitionCases, typeCases, literalCases] at hcase
  | info | program | typedef | enumDef | enumLabel | record | field | service | method | constant => cases hpart

section Cases

variable {key : String} {f : Format Part} {v : Value}

theorem saved_definition (hcase : (key, some f) ∈ definitionCases) (hv : Saved f v) :
    Saved (.named .definition) (.object [(key, some v)]) := by
  simp only [definitionCases, List.mem_cons, Prod.mk.injEq, Option.some.injEq, List.not_mem_nil,
    or_false] at hcase
  rcases hcase with ⟨rfl, rfl⟩ | ⟨rfl, rfl⟩ | ⟨rfl, rfl⟩ | ⟨rfl, rfl⟩ | ⟨rfl, rfl⟩ | ⟨rfl, rfl⟩ <;>
    obtain ⟨d, rfl⟩ := hv
  · exact ⟨Definition.typedef d, rfl⟩
  · exact ⟨Definition.enum d, rfl⟩
  · exact ⟨Definition.record .struct d, rfl⟩
  · exact ⟨Definition.record .exception d, rfl⟩
  · exact ⟨Definition.service d, rfl⟩
  · exact ⟨Definition.constant d, rfl⟩

theorem saved_type (hcase : (key, some f) ∈ typeCases) (hv : Saved f v) :
    Saved (.named .type) (.object [(key, some v)]) := by
  simp only [typeCases, List.mem_cons, Prod.mk.injEq, Option.some.injEq, List.not_mem_nil,
    or_false] at hcase
  rcases hcase with ⟨rfl, rfl⟩ | ⟨rfl, rfl⟩ | ⟨rfl, rfl⟩ | ⟨rfl, rfl⟩ | ⟨rfl, rfl⟩ | ⟨rfl, rfl⟩ |
    ⟨rfl, rfl⟩ | ⟨rfl, rfl⟩
  · obtain ⟨b, rfl⟩ := hv
    exact ⟨Ty.base b, rfl⟩
  · obtain ⟨d, rfl⟩ := hv
    exact ⟨Ty.enum d, rfl⟩
  · obtain ⟨d, rfl⟩ := hv
    exact ⟨Ty.record .struct d, rfl⟩
  · obtain ⟨d, rfl⟩ := hv
    exact ⟨Ty.record .exception d, rfl⟩
  · obtain ⟨element, rfl⟩ := hv
    exact ⟨Ty.list element, rfl⟩
  · obtain ⟨element, rfl⟩ := hv
    exact ⟨Ty.set element, rfl⟩
  · obtain ⟨_, _, ⟨key, rfl⟩, ⟨value, rfl⟩, rfl⟩ := hv
    exact ⟨Ty.map key value, rfl⟩
  · obtain ⟨d, rfl⟩ := hv
    exact ⟨Ty.typedef d, rfl⟩

theorem saved_literal (hcase : (key, some f) ∈ literalCases) (hv : Saved f v) :
    Saved (.named .literal) (.object [(key, some v)]) := by
  simp only [literalCases, List.mem_cons, Prod.mk.injEq, Option.some.injEq, List.not_mem_nil,
    or_false] at hcase
  rcases hcase with ⟨rfl, rfl⟩ | ⟨rfl, rfl⟩ | ⟨rfl, rfl⟩ | ⟨rfl, rfl⟩ | ⟨rfl, rfl⟩
  · obtain ⟨n, rfl⟩ := exists_word64 hv
    exact ⟨Literal.integer n, rfl⟩
  · obtain ⟨x, rfl⟩ := hv
    exact ⟨Literal.double x, rfl⟩
  · obtain ⟨s, rfl⟩ := hv
    exact ⟨Literal.string s, rfl⟩
  · obtain ⟨_, hitems, rfl⟩ := hv
    obtain ⟨items, rfl⟩ := exists_items hitems
    exact ⟨Literal.list items, rfl⟩
  · obtain ⟨_, hentries, rfl⟩ := hv
    obtain ⟨entries, rfl⟩ := exists_entries hentries
    exact ⟨Literal.map entries, rfl⟩

/-- A choice that holds what is saved is saved itself. -/
theorem saved_case {part : Part} {cases : List (String × Option (Format Part))}
    (hpart : grammar part = .choice cases) (hcase : (key, some f) ∈ cases) (hv : Saved f v) :
    Saved (.named part) (.object [(key, some v)]) := by
  cases part with
  | definition =>
    obtain rfl := Body.choice.inj hpart
    exact saved_definition hcase hv
  | type =>
    obtain rfl := Body.choice.inj hpart
    exact saved_type hcase hv
  | literal =>
    obtain rfl := Body.choice.inj hpart
    exact saved_literal hcase hv
  | baseType =>
    obtain rfl := Body.choice.inj hpart
    simp [baseTypeCases] at hcase
  | info | program | typedef | enumDef | enumLabel | record | field | service | method | constant => cases hpart

end Cases

theorem saved_of_fits {f : Format Part} {v : Value} (h : Fits grammar f v) : Saved f v := by
  induction h with
  | text s => exact ⟨s, rfl⟩
  | flag b => exact ⟨b, rfl⟩
  | integer hlow hhigh hsigned hunsigned => exact ⟨_, ⟨hlow, hhigh⟩, rfl⟩
  | double x => exact ⟨x, rfl⟩
  | texts m => exact ⟨m, rfl⟩
  | list hitems ih => exact ⟨_, ih, rfl⟩
  | pair hv hw ihFirst ihSecond => exact ⟨_, _, ihFirst, ihSecond, rfl⟩
  | record hbody hkeys hlength habsent hheld ih =>
    refine saved_of_slots hbody (List.forall₂_iff_zip.2 ⟨hlength, fun hmem => ⟨?_, ?_⟩⟩)
    · exact habsent _ hmem
    · exact ih _ hmem
  | bare hbody hcase => exact saved_bare hbody (List.mem_of_find?_eq_some hcase)
  | case hbody hcase hv ih => exact saved_case hbody (List.mem_of_find?_eq_some hcase) ih

theorem wellFormed_grammar : WellFormed grammar := by
  apply WellFormed.of_slots
  intro part slots hslots
  cases part with
  | definition | baseType | type | literal => cases hslots
  | info | program | typedef | enumDef | enumLabel | record | field | service | method | constant =>
    obtain rfl := Body.record.inj hslots
    decide

end Schema

end IdlGen
