import IdlGen.Proofs.Json.Depth
import IdlGen.Proofs.Schema.Documents

/-!
# How deep a program is saved

What is made of a value is saved no deeper than the value. So a program that has been read from a text
is saved at most one level deeper than the text.
-/

namespace IdlGen

open Json Schema

/-- What is made of the value is saved no deeper than the value. -/
def NoDeeper {α : Type} (toValue : α → Value) (ofValue : Value → Option α) (v : Value) : Prop :=
  ∀ x, ofValue v = some x → (toValue x).nesting ≤ v.nesting

/-! ### Pieces -/

section Pieces

variable {α β : Type} {toValue : α → Value} {ofValue : Value → Option α}

theorem NoDeeper.tagged {part : Value → Option β} {toPart : β → Value} {make : β → α} {key : String}
    {v : Value} (hof : ofValue (.object [(key, some v)]) = (part v).map make)
    (hto : ∀ b, toValue (make b) = .object [(key, some (toPart b))]) (h : NoDeeper toPart part v) :
    NoDeeper toValue ofValue (.object [(key, some v)]) := by
  intro x hx
  rw [hof] at hx
  obtain ⟨b, hb, rfl⟩ := Option.map_eq_some_iff.1 hx
  have hpart := h b hb
  rw [hto, Value.nesting, Value.nesting]
  apply Nat.succ_le_succ
  simp only [Value.membersNesting]
  omega

theorem optional_within {held : Option Value} {r : Option α} {n : Nat}
    (h : optional? ofValue held = some r) (hvalue : ∀ v, NoDeeper toValue ofValue v)
    (hheld : HeldWithin n held) : HeldWithin n (r.map toValue) := by
  cases held with
  | none =>
    obtain rfl := Option.some.inj h
    exact .none n
  | some v =>
    obtain ⟨x, hx, rfl⟩ := Option.map_eq_some_iff.1 h
    exact .some (Nat.le_trans (hvalue v x hx) (hheld v rfl))

theorem doc_within {held : Option Value} {doc : Option String} {n : Nat} (h : doc? held = some doc) :
    HeldWithin n (doc.map .string) := by
  cases doc with
  | none => exact .none n
  | some s => exact .some (Nat.zero_le n)

theorem items_within {items : List Value} {xs : List α} (h : items.mapM ofValue = some xs)
    (hvalue : ∀ v ∈ items, NoDeeper toValue ofValue v) :
    (Value.array (xs.map toValue)).nesting ≤ (Value.array items).nesting := by
  rw [Value.nesting, Value.nesting]
  apply Nat.succ_le_succ
  induction items generalizing xs with
  | nil =>
    obtain rfl := Option.some.inj h
    exact Nat.le_refl _
  | cons v items ih =>
    obtain ⟨hv, hitems⟩ := List.forall_mem_cons.1 hvalue
    rw [List.mapM_cons] at h
    obtain ⟨x, hx, h⟩ := Option.bind_eq_some_iff.1 h
    obtain ⟨xs, hxs, h⟩ := Option.bind_eq_some_iff.1 h
    obtain rfl := Option.some.inj h
    have hfirst := hv x hx
    have hrest := ih hxs hitems
    simp only [List.map_cons, Value.itemsNesting]
    omega

theorem list_within {v : Value} {xs : List α} (h : list? ofValue v = some xs)
    (hvalue : ∀ v, NoDeeper toValue ofValue v) :
    (Value.array (xs.map toValue)).nesting ≤ v.nesting := by
  cases v with
  | array items => exact items_within h fun v _ => hvalue v
  | null | flag b | integer n | double x | string s | object members => cases h

end Pieces

/-! ### Names, enums and literals -/

theorem ProgramInfo.noDeeper (v : Value) : NoDeeper ProgramInfo.toValue ProgramInfo.ofValue v := by
  intro info h
  unfold ProgramInfo.ofValue at h
  split at h
  case h_1 nameKey name entriesKey entries =>
    obtain ⟨l, hl, rfl⟩ := Option.map_eq_some_iff.1 h
    have hheld := Value.heldWithin_members
      [(nameKey, some (.string name)), (entriesKey, some (.object entries))]
    simp only [List.forall_mem_cons] at hheld
    obtain ⟨-, hentries, -⟩ := hheld
    apply nesting_recordValue
    simp only [List.forall_mem_cons]
    refine ⟨.some (Nat.zero_le _), .some ?_, nofun⟩
    rw [Value.nesting, nesting_texts]
    exact Nat.le_trans (Nat.succ_le_succ (Nat.zero_le _)) (hentries _ rfl)
  case h_2 => cases h

theorem owner_within {held : Option Value} {owner : Option ProgramInfo} {n : Nat}
    (h : owner? held = some owner) (hheld : HeldWithin n held) :
    HeldWithin n (owner.map ProgramInfo.toValue) :=
  optional_within h ProgramInfo.noDeeper hheld

theorem EnumLabel.noDeeper (v : Value) : NoDeeper EnumLabel.toValue EnumLabel.ofValue v := by
  intro l h
  unfold EnumLabel.ofValue at h
  split at h
  case h_1 nameKey name valueKey value =>
    obtain ⟨n, hn, h⟩ := Option.bind_eq_some_iff.1 h
    obtain rfl := Option.some.inj h
    apply nesting_recordValue
    simp only [List.forall_mem_cons]
    refine ⟨.some (Nat.zero_le _), ?_, nofun⟩
    cases n with
    | none => exact .none _
    | some n => exact .some (Nat.zero_le _)
  case h_2 => cases h

theorem EnumDef.noDeeper (v : Value) : NoDeeper EnumDef.toValue EnumDef.ofValue v := by
  intro d h
  unfold EnumDef.ofValue at h
  split at h
  case h_1 nameKey name ownerKey owner labelsKey labels docKey doc =>
    obtain ⟨owner', howner', h⟩ := Option.bind_eq_some_iff.1 h
    obtain ⟨labels', hlabels', h⟩ := Option.bind_eq_some_iff.1 h
    obtain ⟨doc', hdoc', h⟩ := Option.bind_eq_some_iff.1 h
    obtain rfl := Option.some.inj h
    have hheld := Value.heldWithin_members
      [(nameKey, some (.string name)), (ownerKey, owner), (labelsKey, some labels), (docKey, doc)]
    simp only [List.forall_mem_cons] at hheld
    obtain ⟨-, howner, hlabels, -, -⟩ := hheld
    apply nesting_recordValue
    simp only [List.forall_mem_cons]
    refine ⟨.some (Nat.zero_le _), owner_within howner' howner, .some ?_, doc_within hdoc', nofun⟩
    exact Nat.le_trans (list_within hlabels' EnumLabel.noDeeper) (hlabels _ rfl)
  case h_2 => cases h

namespace Literal

/-- The same of a list of items. -/
def ItemsNoDeeper (values : List Value) : Prop :=
  ∀ items, itemsOfValues values = some items →
    Value.itemsNesting (itemsToValues items) ≤ Value.itemsNesting values

/-- The same of a list of entries. -/
def EntriesNoDeeper (values : List Value) : Prop :=
  ∀ entries, entriesOfValues values = some entries →
    Value.itemsNesting (entriesToValues entries) ≤ Value.itemsNesting values

theorem ItemsNoDeeper.list {values : List Value} (h : ItemsNoDeeper values) :
    NoDeeper toValue ofValue (.object [("list", some (.array values))]) := by
  intro l hl
  obtain ⟨items, hitems, rfl⟩ := Option.map_eq_some_iff.1 hl
  have hle := h items hitems
  simp only [toValue, Value.nesting, Value.membersNesting]
  omega

theorem EntriesNoDeeper.map {values : List Value} (h : EntriesNoDeeper values) :
    NoDeeper toValue ofValue (.object [("map", some (.array values))]) := by
  intro l hl
  obtain ⟨entries, hentries, rfl⟩ := Option.map_eq_some_iff.1 hl
  have hle := h entries hentries
  simp only [toValue, Value.nesting, Value.membersNesting]
  omega

theorem ItemsNoDeeper.cons {v : Value} {values : List Value} (hv : NoDeeper toValue ofValue v)
    (h : ItemsNoDeeper values) : ItemsNoDeeper (v :: values) := by
  intro items hitems
  obtain ⟨first, hfirst, hitems⟩ := Option.bind_eq_some_iff.1 hitems
  obtain ⟨more, hmore, hitems⟩ := Option.bind_eq_some_iff.1 hitems
  obtain rfl := Option.some.inj hitems
  have hfirstLe := hv first hfirst
  have hmoreLe := h more hmore
  simp only [itemsToValues, Value.itemsNesting]
  omega

theorem EntriesNoDeeper.cons {k v : Value} {values : List Value} (hk : NoDeeper toValue ofValue k)
    (hv : NoDeeper toValue ofValue v) (h : EntriesNoDeeper values) :
    EntriesNoDeeper (.array [k, v] :: values) := by
  intro entries hentries
  obtain ⟨key, hkey, hentries⟩ := Option.bind_eq_some_iff.1 hentries
  obtain ⟨value, hvalue, hentries⟩ := Option.bind_eq_some_iff.1 hentries
  obtain ⟨more, hmore, hentries⟩ := Option.bind_eq_some_iff.1 hentries
  obtain rfl := Option.some.inj hentries
  have hkeyLe := hk key hkey
  have hvalueLe := hv value hvalue
  have hmoreLe := h more hmore
  simp only [entriesToValues, Value.nesting, Value.itemsNesting]
  omega

theorem noDeeper_all :
    (∀ v, NoDeeper toValue ofValue v) ∧ (∀ values, EntriesNoDeeper values) ∧
      ∀ values, ItemsNoDeeper values := by
  apply ofValue.mutual_induct
  case case1 | case2 | case3 =>
    intro _ l h
    obtain rfl := Option.some.inj h
    exact Nat.le_refl _
  case case4 => exact fun values h => ItemsNoDeeper.list h
  case case5 => exact fun values h => EntriesNoDeeper.map h
  case case6 =>
    intro v h₁ h₂ h₃ h₄ h₅ l h
    rw [ofValue] at h
    · cases h
    all_goals assumption
  case case7 | case10 =>
    intro l h
    obtain rfl := Option.some.inj h
    exact Nat.le_refl _
  case case8 => exact fun k v values hk hv h => EntriesNoDeeper.cons hk hv h
  case case9 =>
    intro values h₁ h₂ entries h
    rw [entriesOfValues] at h
    · cases h
    all_goals assumption
  case case11 => exact fun v values hv h => ItemsNoDeeper.cons hv h

theorem noDeeper : ∀ v, NoDeeper toValue ofValue v := noDeeper_all.1

end Literal

/-! ### Types -/

theorem BaseType.noDeeper (v : Value) : NoDeeper BaseType.toValue BaseType.ofValue v :=
  fun _ _ => Nat.zero_le v.nesting

namespace Ty

/-- The same of a list of fields. -/
def FieldsNoDeeper (values : List Value) : Prop :=
  ∀ fields, fieldsOfValues values = some fields →
    Value.itemsNesting (fieldsToValues fields) ≤ Value.itemsNesting values

theorem noDeeper_typedef {nameKey name ownerKey targetKey docKey : String} {target : Value}
    (h : NoDeeper toValue ofValue target) (owner doc : Option Value) :
    NoDeeper typedefToValue typedefOfValue
      (.object [(nameKey, some (.string name)), (ownerKey, owner), (targetKey, some target),
        (docKey, doc)]) := by
  intro d hd
  obtain ⟨owner', howner', hd⟩ := Option.bind_eq_some_iff.1 hd
  obtain ⟨target', htarget', hd⟩ := Option.bind_eq_some_iff.1 hd
  obtain ⟨doc', hdoc', hd⟩ := Option.bind_eq_some_iff.1 hd
  obtain rfl := Option.some.inj hd
  have hheld := Value.heldWithin_members
    [(nameKey, some (.string name)), (ownerKey, owner), (targetKey, some target), (docKey, doc)]
  simp only [List.forall_mem_cons] at hheld
  obtain ⟨-, howner, htarget, -, -⟩ := hheld
  apply nesting_recordValue
  simp only [List.forall_mem_cons]
  refine ⟨.some (Nat.zero_le _), owner_within howner' howner, .some ?_, doc_within hdoc', nofun⟩
  exact Nat.le_trans (h target' htarget') (htarget _ rfl)

theorem noDeeper_record {nameKey name ownerKey fieldsKey docKey : String} {fields : List Value}
    (h : FieldsNoDeeper fields) (owner doc : Option Value) :
    NoDeeper recordToValue recordOfValue
      (.object [(nameKey, some (.string name)), (ownerKey, owner), (fieldsKey, some (.array fields)),
        (docKey, doc)]) := by
  intro d hd
  obtain ⟨owner', howner', hd⟩ := Option.bind_eq_some_iff.1 hd
  obtain ⟨fields', hfields', hd⟩ := Option.bind_eq_some_iff.1 hd
  obtain ⟨doc', hdoc', hd⟩ := Option.bind_eq_some_iff.1 hd
  obtain rfl := Option.some.inj hd
  have hheld := Value.heldWithin_members
    [(nameKey, some (.string name)), (ownerKey, owner), (fieldsKey, some (.array fields)),
      (docKey, doc)]
  simp only [List.forall_mem_cons] at hheld
  obtain ⟨-, howner, hfields, -, -⟩ := hheld
  apply nesting_recordValue
  simp only [List.forall_mem_cons]
  refine ⟨.some (Nat.zero_le _), owner_within howner' howner, .some ?_, doc_within hdoc', nofun⟩
  exact Nat.le_trans (Nat.succ_le_succ (h fields' hfields')) (hfields _ rfl)

theorem noDeeper_field {idKey nameKey name typeKey defaultKey docKey : String} {id type : Value}
    (h : NoDeeper toValue ofValue type) (default doc : Option Value) :
    NoDeeper fieldToValue fieldOfValue
      (.object [(idKey, some id), (nameKey, some (.string name)), (typeKey, some type),
        (defaultKey, default), (docKey, doc)]) := by
  intro f hf
  obtain ⟨id', hid', hf⟩ := Option.bind_eq_some_iff.1 hf
  obtain ⟨type', htype', hf⟩ := Option.bind_eq_some_iff.1 hf
  obtain ⟨default', hdefault', hf⟩ := Option.bind_eq_some_iff.1 hf
  obtain ⟨doc', hdoc', hf⟩ := Option.bind_eq_some_iff.1 hf
  obtain rfl := Option.some.inj hf
  have hheld := Value.heldWithin_members
    [(idKey, some id), (nameKey, some (.string name)), (typeKey, some type), (defaultKey, default),
      (docKey, doc)]
  simp only [List.forall_mem_cons] at hheld
  obtain ⟨-, -, htype, hdefault, -, -⟩ := hheld
  apply nesting_recordValue
  simp only [List.forall_mem_cons]
  refine ⟨.some (Nat.zero_le _), .some (Nat.zero_le _), .some ?_, ?_, doc_within hdoc', nofun⟩
  · exact Nat.le_trans (h type' htype') (htype _ rfl)
  · exact optional_within hdefault' Literal.noDeeper hdefault

theorem noDeeper_map {k v : Value} (hkey : NoDeeper toValue ofValue k)
    (hvalue : NoDeeper toValue ofValue v) :
    NoDeeper toValue ofValue (.object [("map", some (.array [k, v]))]) := by
  intro t h
  obtain ⟨key, hkey', h⟩ := Option.bind_eq_some_iff.1 h
  obtain ⟨value, hvalue', h⟩ := Option.bind_eq_some_iff.1 h
  obtain rfl := Option.some.inj h
  have hkeyLe := hkey key hkey'
  have hvalueLe := hvalue value hvalue'
  simp only [toValue, Value.nesting, Value.membersNesting, Value.itemsNesting]
  omega

theorem FieldsNoDeeper.cons {v : Value} {values : List Value}
    (hv : NoDeeper fieldToValue fieldOfValue v) (h : FieldsNoDeeper values) :
    FieldsNoDeeper (v :: values) := by
  intro fields hfields
  obtain ⟨f, hf, hfields⟩ := Option.bind_eq_some_iff.1 hfields
  obtain ⟨more, hmore, hfields⟩ := Option.bind_eq_some_iff.1 hfields
  obtain rfl := Option.some.inj hfields
  have hfirst := hv f hf
  have hrest := h more hmore
  simp only [fieldsToValues, Value.itemsNesting]
  omega

theorem noDeeper_all :
    (∀ v, NoDeeper toValue ofValue v) ∧ (∀ v, NoDeeper typedefToValue typedefOfValue v) ∧
      (∀ v, NoDeeper recordToValue recordOfValue v) ∧ (∀ values, FieldsNoDeeper values) ∧
      ∀ v, NoDeeper fieldToValue fieldOfValue v := by
  apply ofValue.mutual_induct
  case case1 => exact fun v => .tagged rfl (fun _ => rfl) (BaseType.noDeeper v)
  case case2 => exact fun v => .tagged rfl (fun _ => rfl) (EnumDef.noDeeper v)
  case case3 | case4 | case5 | case6 | case8 => exact fun v ih => .tagged rfl (fun _ => rfl) ih
  case case7 => exact fun k v => noDeeper_map
  case case9 =>
    intro v h₁ h₂ h₃ h₄ h₅ h₆ h₇ h₈ t h
    rw [ofValue] at h
    · cases h
    all_goals assumption
  case case10 => exact fun _ _ _ owner _ _ _ doc ih => noDeeper_typedef ih owner doc
  case case11 =>
    intro v hother d h
    rw [typedefOfValue] at h
    · cases h
    · exact hother
  case case12 => exact fun _ _ _ owner _ _ _ doc ih => noDeeper_record ih owner doc
  case case13 =>
    intro v hother d h
    rw [recordOfValue] at h
    · cases h
    · exact hother
  case case14 =>
    exact fun _ _ _ _ _ _ _ default _ doc ih => noDeeper_field ih default doc
  case case15 =>
    intro v hother f h
    rw [fieldOfValue] at h
    · cases h
    · exact hother
  case case16 =>
    intro fields h
    obtain rfl := Option.some.inj h
    exact Nat.le_refl _
  case case17 => exact fun v values hv h => FieldsNoDeeper.cons hv h

theorem noDeeper : ∀ v, NoDeeper toValue ofValue v := noDeeper_all.1

end Ty

/-! ### Services and programs -/

theorem Method.noDeeper (v : Value) : NoDeeper Method.toValue Method.ofValue v := by
  intro m h
  unfold Method.ofValue at h
  split at h
  case h_1 nameKey name argsKey args returnsKey returns exceptionsKey exceptions onewayKey oneway
      docKey doc =>
    obtain ⟨args', hargs', h⟩ := Option.bind_eq_some_iff.1 h
    obtain ⟨returns', hreturns', h⟩ := Option.bind_eq_some_iff.1 h
    obtain ⟨exceptions', hexceptions', h⟩ := Option.bind_eq_some_iff.1 h
    obtain ⟨oneway', honeway', h⟩ := Option.bind_eq_some_iff.1 h
    obtain ⟨doc', hdoc', h⟩ := Option.bind_eq_some_iff.1 h
    obtain rfl := Option.some.inj h
    have hheld := Value.heldWithin_members
      [(nameKey, some (.string name)), (argsKey, some args), (returnsKey, some returns),
        (exceptionsKey, some exceptions), (onewayKey, some oneway), (docKey, doc)]
    simp only [List.forall_mem_cons] at hheld
    obtain ⟨-, hargs, hreturns, hexceptions, -, -, -⟩ := hheld
    apply nesting_recordValue
    simp only [List.forall_mem_cons, fieldsToValues_eq_map]
    have hfield := Ty.noDeeper_all.2.2.2.2
    refine ⟨.some (Nat.zero_le _), .some ?_, .some ?_, .some ?_, .some (Nat.zero_le _),
      doc_within hdoc', nofun⟩
    · exact Nat.le_trans (list_within hargs' hfield) (hargs _ rfl)
    · exact Nat.le_trans (Ty.noDeeper _ _ hreturns') (hreturns _ rfl)
    · exact Nat.le_trans (list_within hexceptions' hfield) (hexceptions _ rfl)
  case h_2 => cases h

namespace Service

theorem noDeeper_all :
    (∀ v, NoDeeper toValue ofValue v) ∧ ∀ held : Option Value, ∀ base n,
      baseOfValue held = some base → HeldWithin n held → HeldWithin n (baseToValue base) := by
  apply ofValue.mutual_induct
  case case1 =>
    intro nameKey name ownerKey owner baseKey base methodsKey methods docKey doc ih s h
    obtain ⟨owner', howner', h⟩ := Option.bind_eq_some_iff.1 h
    obtain ⟨base', hbase', h⟩ := Option.bind_eq_some_iff.1 h
    obtain ⟨methods', hmethods', h⟩ := Option.bind_eq_some_iff.1 h
    obtain ⟨doc', hdoc', h⟩ := Option.bind_eq_some_iff.1 h
    obtain rfl := Option.some.inj h
    have hheld := Value.heldWithin_members
      [(nameKey, some (.string name)), (ownerKey, owner), (baseKey, base), (methodsKey, some methods),
        (docKey, doc)]
    simp only [List.forall_mem_cons] at hheld
    obtain ⟨-, howner, hbase, hmethods, -, -⟩ := hheld
    apply nesting_recordValue
    simp only [List.forall_mem_cons]
    refine ⟨.some (Nat.zero_le _), owner_within howner' howner, ih base' _ hbase' hbase, .some ?_,
      doc_within hdoc', nofun⟩
    exact Nat.le_trans (list_within hmethods' Method.noDeeper) (hmethods _ rfl)
  case case2 =>
    intro v hother s h
    rw [ofValue] at h
    · cases h
    · exact hother
  case case3 =>
    intro base n h hheld
    obtain rfl := Option.some.inj h
    exact .none n
  case case4 =>
    intro v ih base n h hheld
    obtain ⟨s, hs, rfl⟩ := Option.map_eq_some_iff.1 h
    exact .some (Nat.le_trans (ih s hs) (hheld v rfl))

theorem noDeeper : ∀ v, NoDeeper toValue ofValue v := noDeeper_all.1

end Service

theorem Constant.noDeeper (v : Value) : NoDeeper Constant.toValue Constant.ofValue v := by
  intro c h
  unfold Constant.ofValue at h
  split at h
  case h_1 nameKey name typeKey type valueKey value docKey doc =>
    obtain ⟨type', htype', h⟩ := Option.bind_eq_some_iff.1 h
    obtain ⟨value', hvalue', h⟩ := Option.bind_eq_some_iff.1 h
    obtain ⟨doc', hdoc', h⟩ := Option.bind_eq_some_iff.1 h
    obtain rfl := Option.some.inj h
    have hheld := Value.heldWithin_members
      [(nameKey, some (.string name)), (typeKey, some type), (valueKey, some value), (docKey, doc)]
    simp only [List.forall_mem_cons] at hheld
    obtain ⟨-, htype, hvalue, -, -⟩ := hheld
    apply nesting_recordValue
    simp only [List.forall_mem_cons]
    refine ⟨.some (Nat.zero_le _), .some ?_, .some ?_, doc_within hdoc', nofun⟩
    · exact Nat.le_trans (Ty.noDeeper _ _ htype') (htype _ rfl)
    · exact Nat.le_trans (Literal.noDeeper _ _ hvalue') (hvalue _ rfl)
  case h_2 => cases h

theorem Definition.noDeeper (v : Value) : NoDeeper Definition.toValue Definition.ofValue v := by
  have htypes := Ty.noDeeper_all
  fun_cases Definition.ofValue v
  case case1 v => exact .tagged rfl (fun _ => rfl) (htypes.2.1 v)
  case case2 v => exact .tagged rfl (fun _ => rfl) (EnumDef.noDeeper v)
  case case3 v | case4 v => exact .tagged rfl (fun _ => rfl) (htypes.2.2.1 v)
  case case5 v => exact .tagged rfl (fun _ => rfl) (Service.noDeeper v)
  case case6 v => exact .tagged rfl (fun _ => rfl) (Constant.noDeeper v)
  case case7 =>
    intro d h
    rw [Definition.ofValue] at h
    · cases h
    all_goals assumption

theorem Program.noDeeper (v : Value) : NoDeeper Program.toValue Program.ofValue v := by
  intro p h
  unfold Program.ofValue at h
  split at h
  case h_1 infoKey info includesKey includes definitionsKey definitions =>
    obtain ⟨info', hinfo', h⟩ := Option.bind_eq_some_iff.1 h
    obtain ⟨includes', hincludes', h⟩ := Option.bind_eq_some_iff.1 h
    obtain ⟨definitions', hdefinitions', h⟩ := Option.bind_eq_some_iff.1 h
    obtain rfl := Option.some.inj h
    have hheld := Value.heldWithin_members
      [(infoKey, some info), (includesKey, some includes), (definitionsKey, some definitions)]
    simp only [List.forall_mem_cons] at hheld
    obtain ⟨hinfo, hincludes, hdefinitions, -⟩ := hheld
    apply nesting_recordValue
    simp only [List.forall_mem_cons]
    refine ⟨.some ?_, .some ?_, .some ?_, nofun⟩
    · exact Nat.le_trans (ProgramInfo.noDeeper _ _ hinfo') (hinfo _ rfl)
    · exact Nat.le_trans (list_within hincludes' ProgramInfo.noDeeper) (hincludes _ rfl)
    · exact Nat.le_trans (list_within hdefinitions' Definition.noDeeper) (hdefinitions _ rfl)
  case h_2 => cases h

/-! ### From texts -/

/-- What is filled in for a missing member of a saved program is flat. -/
theorem shallow_grammar : ShallowGrammar Schema.grammar := by
  intro name slots hslots
  cases name with
  | definition | baseType | type | literal => cases hslots
  | info | program | typedef | enumDef | enumLabel | record | field | service | method | constant =>
    obtain rfl := Body.record.inj hslots
    decide

/-- A program that is read from a text is saved at most one level deeper than the text. -/
theorem nesting_toValue_of_ofText {text : String} {p : Program} (h : Document.ofText text = .ok p) :
    p.toValue.nesting ≤ min depthLimit (nesting text) + 1 := by
  unfold Document.ofText Document.ofReading at h
  split at h
  case h_1 => cases h
  case h_2 v hv =>
    have hread : v.nesting ≤ min depthLimit (nesting text) + 1 := nesting_readText shallow_grammar hv
    split at h
    case h_1 q hq =>
      obtain rfl := Except.ok.inj h
      exact Nat.le_trans (Program.noDeeper v q hq) hread
    case h_2 => cases h

end IdlGen
