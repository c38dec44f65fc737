import IdlGen.Proofs.Json.Reading
import IdlGen.Proofs.Schema.Induction
import IdlGen.Schema.Document

/-!
# Saved parts of programs

What is written for a part of a program has the format of that part and turns back into the part.
-/

namespace IdlGen

open Json Schema

/-! ### Pieces -/

theorem optional?_map {α : Type} {toValue : α → Value} {ofValue : Value → Option α} {held : Option α}
    (h : ∀ a, held = some a → ofValue (toValue a) = some a) :
    optional? ofValue (held.map toValue) = some held := by
  cases held with
  | none => rfl
  | some a =>
    rw [Option.map_some, optional?, h a rfl]
    rfl

theorem doc?_map (doc : Option String) : doc? (doc.map .string) = some doc :=
  optional?_map fun _ _ => rfl

theorem mapM_map {α : Type} {toValue : α → Value} {ofValue : Value → Option α} {l : List α}
    (h : ∀ a ∈ l, ofValue (toValue a) = some a) : (l.map toValue).mapM ofValue = some l := by
  induction l with
  | nil => rfl
  | cons a l ih =>
    obtain ⟨ha, hl⟩ := List.forall_mem_cons.1 h
    rw [List.map_cons, List.mapM_cons, ha, ih hl]
    rfl

theorem texts?_map (entries : List (String × String)) :
    texts? (entries.map fun e => (e.1, some (.string e.2))) = some entries := by
  induction entries with
  | nil => rfl
  | cons entry entries ih =>
    rw [List.map_cons, texts?, ih]
    rfl

theorem fits_doc {body : Part → Body Part} (doc : Option String) :
    FitsSlot body docSlot (doc.map .string) :=
  .optional rfl fun s _ => .text s

theorem fits_word32 {body : Part → Body Part} (n : Int32) : Fits body word32 (.integer n.toInt) := by
  have hlow := n.le_toInt
  have hhigh := n.toInt_lt
  exact .integer (by omega) (by omega) (by omega) (by omega)

/-! ### Programs by name -/

namespace ProgramInfo

theorem fits (info : ProgramInfo) : Fits grammar (.named .info) info.toValue :=
  .of_slots rfl (by decide) <| .cons (.filled (.text _)) <|
    .cons (.filled (.texts info.namespaces)) .nil

theorem ofValue_toValue (info : ProgramInfo) : ofValue info.toValue = some info := by
  change (texts? (info.namespaces.entries.map fun e => (e.1, some (.string e.2)))).map _ = _
  rw [texts?_map, Option.map_some, Keyed.ofList_entries]

instance : Faithful ProgramInfo := ⟨fits, ofValue_toValue⟩

end ProgramInfo

theorem fits_owner (owner : Option ProgramInfo) :
    FitsSlot grammar ownerSlot (owner.map ProgramInfo.toValue) :=
  .optional rfl fun info _ => info.fits

theorem owner?_map (owner : Option ProgramInfo) :
    owner? (owner.map ProgramInfo.toValue) = some owner :=
  optional?_map fun info _ => info.ofValue_toValue

/-! ### Enums -/

namespace EnumLabel

theorem fits (l : EnumLabel) : Fits grammar (.named .enumLabel) l.toValue :=
  .of_slots rfl (by decide) <| .cons (.filled (.text _)) <|
    .cons (.optional rfl fun n _ => fits_word32 n) .nil

theorem ofValue_toValue (l : EnumLabel) : ofValue l.toValue = some l := by
  change ((optional? word? (l.value.map fun n => .integer n.toInt)).bind fun value =>
    some (EnumLabel.mk l.name value)) = some l
  have hvalue : optional? word? (l.value.map fun n => .integer n.toInt) = some l.value :=
    optional?_map fun n _ => congrArg some (Int32.ofInt_toInt n)
  rw [hvalue]
  rfl

instance : Faithful EnumLabel := ⟨fits, ofValue_toValue⟩

end EnumLabel

namespace EnumDef

theorem fits (d : EnumDef) : Fits grammar (.named .enumDef) d.toValue :=
  .of_slots rfl (by decide) <| .cons (.filled (.text _)) <| .cons (fits_owner d.owner) <|
    .cons (.filled (.of_list fun l _ => l.fits)) <| .cons (fits_doc d.doc) .nil

theorem ofValue_toValue (d : EnumDef) : ofValue d.toValue = some d := by
  change ((owner? (d.owner.map ProgramInfo.toValue)).bind fun owner =>
    ((d.labels.map EnumLabel.toValue).mapM EnumLabel.ofValue).bind fun labels =>
      (doc? (d.doc.map .string)).bind fun doc =>
        some (EnumDef.mk d.name owner labels doc)) = some d
  rw [owner?_map, mapM_map fun l _ => l.ofValue_toValue, doc?_map]
  rfl

instance : Faithful EnumDef := ⟨fits, ofValue_toValue⟩

end EnumDef

/-! ### Literals -/

namespace Literal

theorem fits_case {key : String} {f : Format Part} {v : Value}
    (hcase : (literalCases.find? fun c => c.1 = key) = some (key, some f))
    (hv : Fits grammar f v) : Fits grammar (.named .literal) (.object [(key, some v)]) :=
  .case rfl hcase hv

theorem fits (l : Literal) : Fits grammar (.named .literal) l.toValue := by
  induction l with
  | integer n =>
    have hlow := n.le_toInt
    have hhigh := n.toInt_lt
    exact fits_case (f := word64) rfl
      (.integer (by omega) (by omega) (by omega) (by omega))
  | double x => exact fits_case (f := .double) rfl (.double x)
  | string s => exact fits_case (f := .text) rfl (.text s)
  | list items ih =>
    have hitems : ∀ v ∈ itemsToValues items, Fits grammar (.named .literal) v := by
      induction items with
      | nil => exact fun v hv => absurd hv List.not_mem_nil
      | cons item items ihItems =>
        obtain ⟨hitem, hmore⟩ := List.forall_mem_cons.1 ih
        exact List.forall_mem_cons.2 ⟨hitem, ihItems hmore⟩
    exact fits_case (f := .list (.named .literal)) rfl (.list hitems)
  | map entries ih =>
    have hentries : ∀ v ∈ entriesToValues entries,
        Fits grammar (.pair (.named .literal) (.named .literal)) v := by
      induction entries with
      | nil => exact fun v hv => absurd hv List.not_mem_nil
      | cons entry entries ihEntries =>
        obtain ⟨⟨hkey, hvalue⟩, hmore⟩ := List.forall_mem_cons.1 ih
        exact List.forall_mem_cons.2 ⟨.pair hkey hvalue, ihEntries hmore⟩
    exact fits_case (f := .list (.pair (.named .literal) (.named .literal))) rfl (.list hentries)

theorem itemsOfValues_toValues {items : List Literal}
    (h : ∀ item ∈ items, ofValue item.toValue = some item) :
    itemsOfValues (itemsToValues items) = some items := by
  induction items with
  | nil => rfl
  | cons item items ih =>
    obtain ⟨hitem, hitems⟩ := List.forall_mem_cons.1 h
    rw [itemsToValues, itemsOfValues, hitem, ih hitems]
    rfl

theorem entriesOfValues_toValues {entries : List (Literal × Literal)}
    (h : ∀ entry ∈ entries, ofValue entry.1.toValue = some entry.1 ∧
      ofValue entry.2.toValue = some entry.2) :
    entriesOfValues (entriesToValues entries) = some entries := by
  induction entries with
  | nil => rfl
  | cons entry entries ih =>
    obtain ⟨⟨hkey, hvalue⟩, hentries⟩ := List.forall_mem_cons.1 h
    rw [entriesToValues, entriesOfValues, hkey, hvalue, ih hentries]
    rfl

theorem ofValue_toValue (l : Literal) : ofValue l.toValue = some l := by
  induction l with
  | integer n => exact congrArg (fun n => some (integer n)) (Int64.ofInt_toInt n)
  | double x | string s => rfl
  | list items ih =>
    change (itemsOfValues (itemsToValues items)).map list = _
    rw [itemsOfValues_toValues ih]
    rfl
  | map entries ih =>
    change (entriesOfValues (entriesToValues entries)).map map = _
    rw [entriesOfValues_toValues ih]
    rfl

instance : Faithful Literal := ⟨fits, ofValue_toValue⟩

end Literal

/-! ### Types -/

namespace BaseType

theorem fits (b : BaseType) : Fits grammar (.named .baseType) b.toValue := by
  cases b <;> exact .bare rfl rfl

theorem ofValue_toValue (b : BaseType) : ofValue b.toValue = some b := by
  cases b <;> rfl

instance : Faithful BaseType := ⟨fits, ofValue_toValue⟩

end BaseType

namespace Ty

theorem fits_field {f : Field} (h : Fits grammar (.named .type) f.type.toValue) :
    Fits grammar (.named .field) (fieldToValue f) := by
  obtain ⟨id, name, type, default, doc⟩ := f
  rw [fieldToValue]
  exact .of_slots rfl (by decide) <| .cons (.filled (fits_word32 id)) <| .cons (.filled (.text _)) <|
    .cons (.filled h) <| .cons (.optional rfl fun value _ => Literal.fits value) <|
      .cons (fits_doc doc) .nil

theorem fits_fields {fields : List Field}
    (h : ∀ f ∈ fields, Fits grammar (.named .type) f.type.toValue) :
    ∀ v ∈ fieldsToValues fields, Fits grammar (.named .field) v := by
  induction fields with
  | nil => exact fun v hv => absurd hv List.not_mem_nil
  | cons f fields ih =>
    obtain ⟨hf, hfields⟩ := List.forall_mem_cons.1 h
    exact List.forall_mem_cons.2 ⟨fits_field hf, ih hfields⟩

theorem fits_record {d : Record}
    (h : ∀ f ∈ d.fields, Fits grammar (.named .type) f.type.toValue) :
    Fits grammar (.named .record) (recordToValue d) := by
  obtain ⟨name, owner, fields, doc⟩ := d
  rw [recordToValue]
  exact .of_slots rfl (by decide) <| .cons (.filled (.text _)) <| .cons (fits_owner owner) <|
    .cons (.filled (.list (fits_fields h))) <| .cons (fits_doc doc) .nil

theorem fits_typedef {d : Typedef} (h : Fits grammar (.named .type) d.target.toValue) :
    Fits grammar (.named .typedef) (typedefToValue d) := by
  obtain ⟨name, owner, target, doc⟩ := d
  rw [typedefToValue]
  exact .of_slots rfl (by decide) <| .cons (.filled (.text _)) <| .cons (fits_owner owner) <|
    .cons (.filled h) <| .cons (fits_doc doc) .nil

theorem fits_case {key : String} {f : Format Part} {v : Value}
    (hcase : (typeCases.find? fun c => c.1 = key) = some (key, some f))
    (hv : Fits grammar f v) : Fits grammar (.named .type) (.object [(key, some v)]) :=
  .case rfl hcase hv

theorem fits (t : Ty) : Fits grammar (.named .type) t.toValue := by
  induction t with
  | base b => exact fits_case (f := .named .baseType) rfl b.fits
  | enum d => exact fits_case (f := .named .enumDef) rfl d.fits
  | record kind d ih => cases kind <;> exact fits_case (f := .named .record) rfl (fits_record ih)
  | list element ih | set element ih => exact fits_case (f := .named .type) rfl ih
  | map key value ihKey ihValue =>
    exact fits_case (f := .pair (.named .type) (.named .type)) rfl (.pair ihKey ihValue)
  | typedef d ih => exact fits_case (f := .named .typedef) rfl (fits_typedef ih)

theorem fieldOfValue_toValue {f : Field} (h : ofValue f.type.toValue = some f.type) :
    fieldOfValue (fieldToValue f) = some f := by
  obtain ⟨id, name, type, default, doc⟩ := f
  change ((word? (.integer id.toInt)).bind fun id => (ofValue type.toValue).bind fun type =>
    (optional? Literal.ofValue (default.map Literal.toValue)).bind fun default =>
      (doc? (doc.map .string)).bind fun doc =>
        some (FieldOf.mk id name type default doc)) = some (FieldOf.mk id name type default doc)
  have hid : word? (.integer id.toInt) = some id := congrArg some (Int32.ofInt_toInt id)
  have hdefault : optional? Literal.ofValue (default.map Literal.toValue) = some default :=
    optional?_map fun value _ => value.ofValue_toValue
  have htype : ofValue type.toValue = some type := h
  rw [hid, htype, hdefault, doc?_map]
  rfl

theorem fieldsOfValues_toValues {fields : List Field}
    (h : ∀ f ∈ fields, ofValue f.type.toValue = some f.type) :
    fieldsOfValues (fieldsToValues fields) = some fields := by
  induction fields with
  | nil => rfl
  | cons f fields ih =>
    obtain ⟨hf, hfields⟩ := List.forall_mem_cons.1 h
    rw [fieldsToValues, fieldsOfValues, fieldOfValue_toValue hf, ih hfields]
    rfl

theorem recordOfValue_toValue {d : Record} (h : ∀ f ∈ d.fields, ofValue f.type.toValue = some f.type) :
    recordOfValue (recordToValue d) = some d := by
  obtain ⟨name, owner, fields, doc⟩ := d
  change ((owner? (owner.map ProgramInfo.toValue)).bind fun owner =>
    (fieldsOfValues (fieldsToValues fields)).bind fun fields =>
      (doc? (doc.map .string)).bind fun doc =>
        some (RecordOf.mk name owner fields doc)) = some (RecordOf.mk name owner fields doc)
  rw [owner?_map, fieldsOfValues_toValues h, doc?_map]
  rfl

theorem typedefOfValue_toValue {d : Typedef} (h : ofValue d.target.toValue = some d.target) :
    typedefOfValue (typedefToValue d) = some d := by
  obtain ⟨name, owner, target, doc⟩ := d
  change ((owner? (owner.map ProgramInfo.toValue)).bind fun owner =>
    (ofValue target.toValue).bind fun target =>
      (doc? (doc.map .string)).bind fun doc =>
        some (TypedefOf.mk name owner target doc)) = some (TypedefOf.mk name owner target doc)
  have htarget : ofValue target.toValue = some target := h
  rw [owner?_map, htarget, doc?_map]
  rfl

theorem ofValue_toValue (t : Ty) : ofValue t.toValue = some t := by
  induction t with
  | base b =>
    change (BaseType.ofValue b.toValue).map base = _
    rw [b.ofValue_toValue]
    rfl
  | enum d =>
    change (EnumDef.ofValue d.toValue).map enum = _
    rw [d.ofValue_toValue]
    rfl
  | record kind d ih =>
    cases kind with
    | struct =>
      change (recordOfValue (recordToValue d)).map (record .struct) = _
      rw [recordOfValue_toValue ih]
      rfl
    | exception =>
      change (recordOfValue (recordToValue d)).map (record .exception) = _
      rw [recordOfValue_toValue ih]
      rfl
  | list element ih =>
    change (ofValue element.toValue).map list = _
    rw [ih]
    rfl
  | set element ih =>
    change (ofValue element.toValue).map set = _
    rw [ih]
    rfl
  | map key value ihKey ihValue =>
    change ((ofValue key.toValue).bind fun key => (ofValue value.toValue).bind fun value =>
      some (map key value)) = _
    rw [ihKey, ihValue]
    rfl
  | typedef d ih =>
    change (typedefOfValue (typedefToValue d)).map typedef = _
    rw [typedefOfValue_toValue ih]
    rfl

instance : Faithful Ty := ⟨fits, ofValue_toValue⟩

instance : Faithful Record :=
  ⟨fun _ => fits_record fun f _ => f.type.fits, fun _ =>
    recordOfValue_toValue fun f _ => f.type.ofValue_toValue⟩

instance : Faithful Field :=
  ⟨fun f => fits_field f.type.fits, fun f => fieldOfValue_toValue f.type.ofValue_toValue⟩

instance : Faithful Typedef :=
  ⟨fun d => fits_typedef d.target.fits, fun d => typedefOfValue_toValue d.target.ofValue_toValue⟩

end Ty

/-! ### Services -/

theorem fieldsToValues_eq_map (fields : List Field) :
    Ty.fieldsToValues fields = fields.map Ty.fieldToValue := by
  induction fields with
  | nil => rfl
  | cons f fields ih => rw [Ty.fieldsToValues, ih, List.map_cons]

theorem list?_fields (fields : List Field) :
    list? Ty.fieldOfValue (.array (Ty.fieldsToValues fields)) = some fields := by
  rw [fieldsToValues_eq_map]
  exact mapM_map fun f _ => Ty.fieldOfValue_toValue f.type.ofValue_toValue

theorem fits_fieldList {key : String} (fields : List Field) :
    FitsSlot grammar (many key .field) (some (.array (Ty.fieldsToValues fields))) :=
  .filled (.list (Ty.fits_fields fun f _ => f.type.fits))

namespace Method

theorem fits (m : Method) : Fits grammar (.named .method) m.toValue :=
  .of_slots rfl (by decide) <| .cons (.filled (.text _)) <| .cons (fits_fieldList m.args) <|
    .cons (.filled m.returns.fits) <| .cons (fits_fieldList m.exceptions) <|
      .cons (.filled (.flag m.oneway)) <| .cons (fits_doc m.doc) .nil

theorem ofValue_toValue (m : Method) : ofValue m.toValue = some m := by
  change ((list? Ty.fieldOfValue (.array (Ty.fieldsToValues m.args))).bind fun args =>
    (Ty.ofValue m.returns.toValue).bind fun returns =>
      (list? Ty.fieldOfValue (.array (Ty.fieldsToValues m.exceptions))).bind fun exceptions =>
        (doc? (m.doc.map .string)).bind fun doc =>
          some (Method.mk m.name args returns exceptions m.oneway doc)) = some m
  rw [list?_fields, m.returns.ofValue_toValue, list?_fields, doc?_map]
  rfl

instance : Faithful Method := ⟨fits, ofValue_toValue⟩

end Method

namespace Service

theorem fits_base {base : Option Service}
    (h : ∀ s, base = some s → Fits grammar (.named .service) s.toValue) :
    FitsSlot grammar (may "extends" (.named .service)) (baseToValue base) := by
  cases base with
  | none => exact ⟨fun _ => rfl, fun v hv => nomatch hv⟩
  | some s => exact .filled (h s rfl)

theorem fits (s : Service) : Fits grammar (.named .service) s.toValue := by
  induction s with
  | service s ih =>
    obtain ⟨name, owner, base, methods, doc⟩ := s
    rw [toValue]
    exact .of_slots rfl (by decide) <| .cons (.filled (.text _)) <| .cons (fits_owner owner) <|
      .cons (fits_base ih) <| .cons (.filled (.of_list fun m _ => m.fits)) <|
        .cons (fits_doc doc) .nil

theorem baseOfValue_toValue {base : Option Service}
    (h : ∀ s, base = some s → ofValue s.toValue = some s) :
    baseOfValue (baseToValue base) = some base := by
  cases base with
  | none => rfl
  | some s =>
    rw [baseToValue, baseOfValue, h s rfl]
    rfl

theorem ofValue_toValue (s : Service) : ofValue s.toValue = some s := by
  induction s with
  | service s ih =>
    obtain ⟨name, owner, base, methods, doc⟩ := s
    change ((owner? (owner.map ProgramInfo.toValue)).bind fun owner =>
      (baseOfValue (baseToValue base)).bind fun base =>
        ((methods.map Method.toValue).mapM Method.ofValue).bind fun methods =>
          (doc? (doc.map .string)).bind fun doc =>
            some (Service.mk name owner base methods doc)) =
      some (Service.mk name owner base methods doc)
    rw [owner?_map, baseOfValue_toValue ih, mapM_map fun m _ => m.ofValue_toValue, doc?_map]
    rfl

instance : Faithful Service := ⟨fits, ofValue_toValue⟩

end Service

/-! ### Programs -/

namespace Constant

theorem fits (c : Constant) : Fits grammar (.named .constant) c.toValue :=
  .of_slots rfl (by decide) <| .cons (.filled (.text _)) <| .cons (.filled c.type.fits) <|
    .cons (.filled c.value.fits) <| .cons (fits_doc c.doc) .nil

theorem ofValue_toValue (c : Constant) : ofValue c.toValue = some c := by
  change ((Ty.ofValue c.type.toValue).bind fun type =>
    (Literal.ofValue c.value.toValue).bind fun value =>
      (doc? (c.doc.map .string)).bind fun doc => some (Constant.mk c.name type value doc)) = some c
  rw [c.type.ofValue_toValue, c.value.ofValue_toValue, doc?_map]
  rfl

instance : Faithful Constant := ⟨fits, ofValue_toValue⟩

end Constant

namespace Definition

theorem fits_case {key : String} {f : Format Part} {v : Value}
    (hcase : (definitionCases.find? fun c => c.1 = key) = some (key, some f))
    (hv : Fits grammar f v) : Fits grammar (.named .definition) (.object [(key, some v)]) :=
  .case rfl hcase hv

theorem fits (d : Definition) : Fits grammar (.named .definition) d.toValue := by
  cases d with
  | typedef d => exact fits_case (f := .named .typedef) rfl (Ty.fits_typedef d.target.fits)
  | enum d => exact fits_case (f := .named .enumDef) rfl d.fits
  | record kind d =>
    have hd := Ty.fits_record fun (f : Field) (_ : f ∈ d.fields) => f.type.fits
    cases kind <;> exact fits_case (f := .named .record) rfl hd
  | service d => exact fits_case (f := .named .service) rfl d.fits
  | constant d => exact fits_case (f := .named .constant) rfl d.fits

theorem ofValue_toValue (d : Definition) : ofValue d.toValue = some d := by
  cases d with
  | typedef d =>
    change (Ty.typedefOfValue (Ty.typedefToValue d)).map typedef = _
    rw [Ty.typedefOfValue_toValue d.target.ofValue_toValue]
    rfl
  | enum d =>
    change (EnumDef.ofValue d.toValue).map enum = _
    rw [d.ofValue_toValue]
    rfl
  | record kind d =>
    have hd := Ty.recordOfValue_toValue fun (f : Field) (_ : f ∈ d.fields) => f.type.ofValue_toValue
    cases kind with
    | struct =>
      change (Ty.recordOfValue (Ty.recordToValue d)).map (record .struct) = _
      rw [hd]
      rfl
    | exception =>
      change (Ty.recordOfValue (Ty.recordToValue d)).map (record .exception) = _
      rw [hd]
      rfl
  | service d =>
    change (Service.ofValue d.toValue).map service = _
    rw [d.ofValue_toValue]
    rfl
  | constant d =>
    change (Constant.ofValue d.toValue).map constant = _
    rw [d.ofValue_toValue]
    rfl

instance : Faithful Definition := ⟨fits, ofValue_toValue⟩

end Definition

namespace Program

theorem fits (p : Program) : Fits grammar (.named .program) p.toValue :=
  .of_slots rfl (by decide) <| .cons (.filled p.info.fits) <|
    .cons (.filled (.of_list fun info _ => info.fits)) <|
      .cons (.filled (.of_list fun d _ => d.fits)) .nil

theorem ofValue_toValue (p : Program) : ofValue p.toValue = some p := by
  change ((ProgramInfo.ofValue p.info.toValue).bind fun info =>
    ((p.includes.map ProgramInfo.toValue).mapM ProgramInfo.ofValue).bind fun includes =>
      ((p.definitions.map Definition.toValue).mapM Definition.ofValue).bind fun definitions =>
        some (Program.mk info includes definitions)) = some p
  rw [p.info.ofValue_toValue, mapM_map fun info _ => info.ofValue_toValue,
    mapM_map fun d _ => d.ofValue_toValue]
  rfl

instance : Faithful Program := ⟨fits, ofValue_toValue⟩

end Program

end IdlGen
