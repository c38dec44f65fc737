import IdlGen.Proofs.Lisp.Conformance
import IdlGen.Proofs.Lisp.TypeReading

/-!
# Literals read back

A literal is laid out over many lines, with strings in it that may themselves break lines and hold
quotes, backslashes and parentheses. Reading it gives the tree that its type and value determine, so
nothing of the layout gets into the tree, and no string loses or gains a character.
-/

namespace IdlGen.Lisp

open Reader

/-! ### What a literal is made of -/

theorem literals_eq_ok {current : ProgramInfo} {element : Ty} {items : List Literal}
    {parts : List Layout} (h : literals current element items = .ok parts) :
    List.Forall₂ (fun item part => literal current element item = .ok part) items parts := by
  rw [literals_eq_mapM] at h
  exact mapM_eq_ok.1 h

/-- The entry of a map. -/
def pairEntry (k v : Layout) : Layout :=
  Layout.text "(cl:cons " ++ k ++ Layout.text " " ++ v ++ Layout.text ")"

theorem pairs_eq_ok {current : ProgramInfo} {keyType valueType : Ty}
    {entries : List (Literal × Literal)} {parts : List Layout}
    (h : pairs current keyType valueType entries = .ok parts) :
    List.Forall₂ (fun entry part => ∃ k v, literal current keyType entry.1 = .ok k ∧
      literal current valueType entry.2 = .ok v ∧ part = pairEntry k v) entries parts := by
  rw [pairs_eq_mapM] at h
  refine (mapM_eq_ok.1 h).imp fun entry part hpart => ?_
  obtain ⟨k, hk, hpart⟩ := bind_eq_ok.1 hpart
  obtain ⟨v, hv, hpart⟩ := bind_eq_ok.1 hpart
  exact ⟨k, v, hk, hv, (pure_eq_ok.1 hpart).symm⟩

theorem fieldOfKey_eq_ok {d : Record} {key : Literal} {f : Field} (h : fieldOfKey d key = .ok f) :
    key = .string f.name ∧ d.fieldNamed? f.name = some f := by
  unfold fieldOfKey at h
  split at h
  · rename_i name
    split at h
    · rename_i field hfound
      obtain rfl := Except.ok.inj h
      have hname : field.name = name := by
        simpa using List.find?_some hfound
      subst hname
      exact ⟨rfl, hfound⟩
    · cases h
  · cases h

theorem assignments_eq_ok {current : ProgramInfo} {d : Record}
    {entries : List (Literal × Literal)} {parts : List Layout}
    (h : assignments current d entries = .ok parts) :
    List.Forall₂ (fun entry part => ∃ f v, entry.1 = .string f.name ∧
      d.fieldNamed? f.name = some f ∧ literal current f.type entry.2 = .ok v ∧
        part = Layout.text (":" ++ f.name ++ " ") ++ v) entries parts := by
  rw [assignments_eq_mapM] at h
  refine (mapM_eq_ok.1 h).imp fun entry part hpart => ?_
  obtain ⟨f, hf, hpart⟩ := bind_eq_ok.1 hpart
  obtain ⟨v, hv, hpart⟩ := bind_eq_ok.1 hpart
  obtain ⟨hname, hfound⟩ := fieldOfKey_eq_ok hf
  exact ⟨f, v, hname, hfound, hv, (pure_eq_ok.1 hpart).symm⟩

/-! ### The tree of a literal -/

mutual

/-- The tree that a literal of some type stands for; none if the type has no such literal. -/
def literalTree (current : ProgramInfo) (type : Ty) : Literal → Option Sexp
  | .integer n =>
    match type.trueType with
    | .base .bool => some (.atom (if 0 < n.toInt then "t" else "nil"))
    | .base .void => none
    | .base .string => none
    | .base _ => some (.atom (integerText n.toInt))
    | .enum _ => some (.atom (integerText n.toInt))
    | _ => none
  | .double x =>
    match type.trueType with
    | .base .double => some (.atom (String.ofList (doubleStyle.write x)))
    | _ => none
  | .string s =>
    match type.trueType with
    | .base .string => some (.string s)
    | _ => none
  | .list items =>
    match type.trueType with
    | .list element =>
      (itemTrees current element items).map fun ts => .list (.atom "thrift:list" :: ts)
    | .set element =>
      (itemTrees current element items).map fun ts => .list (.atom "thrift:set" :: ts)
    | _ => none
  | .map entries =>
    match type.trueType with
    | .map key value =>
      (entryTrees current key value entries).map fun ts => .list (.atom "thrift:map" :: ts)
    | .record kind d =>
      (fieldTrees current d entries).map fun ts =>
        .list (.atom (constructor kind) :: .quoted (.atom (recordName d current)) :: ts)
    | _ => none

/-- The trees of items, in order. -/
def itemTrees (current : ProgramInfo) (element : Ty) : List Literal → Option (List Sexp)
  | [] => some []
  | item :: more => do
    let t ← literalTree current element item
    let ts ← itemTrees current element more
    pure (t :: ts)

/-- The trees of the entries of a map, in order. -/
def entryTrees (current : ProgramInfo) (keyType valueType : Ty) :
    List (Literal × Literal) → Option (List Sexp)
  | [] => some []
  | (key, value) :: more => do
    let k ← literalTree current keyType key
    let v ← literalTree current valueType value
    let ts ← entryTrees current keyType valueType more
    pure (.list [.atom "cl:cons", k, v] :: ts)

/-- The keywords and trees of the fields that a record literal gives, in its order. -/
def fieldTrees (current : ProgramInfo) (d : Record) :
    List (Literal × Literal) → Option (List Sexp)
  | [] => some []
  | (key, value) :: more => do
    let name ← key.string?
    let f ← d.fieldNamed? name
    let v ← literalTree current f.type value
    let ts ← fieldTrees current d more
    pure (.atom (":" ++ name) :: v :: ts)

end

/-! ### Compound literals -/

theorem yields_composite {head : String} {forms entries : List Sexp} {parts : List Layout}
    (hhead : Yields (.text head) forms)
    (hparts : Follows (Layout.concat (parts.flatMap fun part => [Layout.line, part])) entries) :
    Yields (composite head parts) [.list (forms ++ entries)] :=
  (hhead.append hparts).parens.congr fun s => by
    simp only [composite, parens, readLayout_append, readLayout_indent, Option.bind_assoc]

theorem yields_pairEntry {k v : Layout} {kt vt : Sexp} (hk : Yields k [kt]) (hv : Yields v [vt]) :
    Yields (pairEntry k v) [.list [.atom "cl:cons", kt, vt]] := by
  have hinner := (yields_atom (t := "cl:cons") (by decide)).append
    (blank_space.append (hk.append (blank_space.append hv)))
  refine hinner.parens.congr fun s => ?_
  have hsplit : "(cl:cons " = "(" ++ ("cl:cons" ++ " ") := rfl
  rw [pairEntry, hsplit]
  simp only [parens, readLayout_append, readLayout_text_append, Option.bind_assoc]

theorem yields_assignment {name : String} (hname : Plain name) {v : Layout} {t : Sexp}
    (hv : Yields v [t]) :
    Yields (Layout.text (":" ++ name ++ " ") ++ v) [.atom (":" ++ name), t] := by
  refine ((yields_atom (Atomic.keyword hname)).append (blank_space.append hv)).congr fun s => ?_
  simp only [readLayout_append, readLayout_text_append, Option.bind_assoc]
  rfl

theorem yields_constructor {d : Record} (hd : d.PlainNames) (kind : RecordKind)
    (current : ProgramInfo) :
    Yields (.text (constructor kind ++ " '" ++ recordName d current))
      [.atom (constructor kind), .quoted (.atom (recordName d current))] := by
  have hconstructor : Atomic (constructor kind) := by cases kind <;> decide
  refine ((yields_atom hconstructor).append (blank_space.append
    (yields_quoted_atom (atomic_recordName hd current)))).congr fun s => ?_
  have hsplit : " '" = " " ++ "'" := rfl
  rw [readLayout_append, readLayout_texts, ← readLayout_text_append, hsplit]
  simp only [String.append_assoc]

/-! ### Literals -/

section Literals

variable {current : ProgramInfo}

/-- What has to be shown of a literal: it has a tree, and its layout is read as that tree. -/
def Reads (current : ProgramInfo) (v : Literal) : Prop :=
  ∀ {type : Ty} {l : Layout}, literal current type v = .ok l → type.PlainRecords →
    ∃ t, literalTree current type v = some t ∧ Yields l [t]

theorem itemTrees_of_forall₂ {element : Ty} (helement : element.PlainRecords) {items : List Literal}
    {parts : List Layout} (ih : ∀ item ∈ items, Reads current item)
    (h : List.Forall₂ (fun item part => literal current element item = .ok part) items parts) :
    ∃ ts, itemTrees current element items = some ts ∧
      YieldsEach parts ts := by
  induction h with
  | nil => exact ⟨[], rfl, .nil⟩
  | @cons item part items parts hpart hrest ihRest =>
    obtain ⟨hitem, hitems⟩ := List.forall_mem_cons.1 ih
    obtain ⟨t, ht, hyields⟩ := hitem hpart helement
    obtain ⟨ts, hts, hmore⟩ := ihRest hitems
    refine ⟨t :: ts, ?_, .cons hyields hmore⟩
    rw [itemTrees, ht, hts]
    rfl

theorem entryTrees_of_forall₂ {key value : Ty} (hkey : key.PlainRecords)
    (hvalue : value.PlainRecords) {entries : List (Literal × Literal)} {parts : List Layout}
    (ih : ∀ entry ∈ entries, Reads current entry.1 ∧ Reads current entry.2)
    (h : List.Forall₂ (fun entry part => ∃ k v, literal current key entry.1 = .ok k ∧
      literal current value entry.2 = .ok v ∧ part = pairEntry k v) entries parts) :
    ∃ ts, entryTrees current key value entries = some ts ∧
      YieldsEach parts ts := by
  induction h with
  | nil => exact ⟨[], rfl, .nil⟩
  | @cons entry part entries parts hpart hrest ihRest =>
    obtain ⟨⟨ihKey, ihValue⟩, hentries⟩ := List.forall_mem_cons.1 ih
    obtain ⟨k, v, hk, hv, rfl⟩ := hpart
    obtain ⟨kt, hkt, hyieldsKey⟩ := ihKey hk hkey
    obtain ⟨vt, hvt, hyieldsValue⟩ := ihValue hv hvalue
    obtain ⟨ts, hts, hmore⟩ := ihRest hentries
    refine ⟨.list [.atom "cl:cons", kt, vt] :: ts, ?_,
      .cons (yields_pairEntry hyieldsKey hyieldsValue) hmore⟩
    obtain ⟨k', v'⟩ := entry
    rw [entryTrees, hkt, hvt, hts]
    rfl

theorem fieldTrees_of_forall₂ {kind : RecordKind} {d : Record}
    (hd : (Ty.record kind d).PlainRecords) {entries : List (Literal × Literal)}
    {parts : List Layout} (ih : ∀ entry ∈ entries, Reads current entry.2)
    (h : List.Forall₂ (fun entry part => ∃ f v, entry.1 = .string f.name ∧
      d.fieldNamed? f.name = some f ∧ literal current f.type entry.2 = .ok v ∧
        part = Layout.text (":" ++ f.name ++ " ") ++ v) entries parts) :
    ∃ ts groups, fieldTrees current d entries = some ts ∧ ts = groups.flatten ∧
      List.Forall₂ Yields parts groups := by
  induction h with
  | nil => exact ⟨[], [], rfl, rfl, .nil⟩
  | @cons entry part entries parts hpart hrest ihRest =>
    obtain ⟨ihEntry, hentries⟩ := List.forall_mem_cons.1 ih
    obtain ⟨f, v, hname, hfound, hv, rfl⟩ := hpart
    have hmem : f ∈ d.fields := List.mem_of_find?_eq_some hfound
    have hplain : Plain f.name := (hd kind d (.self _)).2.2 f hmem
    obtain ⟨t, ht, hyields⟩ := ihEntry hv (hd.of_mentions (.field hmem))
    obtain ⟨ts, groups, hts, rfl, hmore⟩ := ihRest hentries
    refine ⟨.atom (":" ++ f.name) :: t :: groups.flatten, [.atom (":" ++ f.name), t] :: groups, ?_,
      rfl, .cons (yields_assignment hplain hyields) hmore⟩
    obtain ⟨key, value⟩ := entry
    obtain rfl : key = .string f.name := hname
    rw [fieldTrees]
    simp only [Literal.string?, Option.bind_eq_bind, Option.bind_some, hfound, ht, hts]
    rfl

theorem reads_integer (n : Int64) : Reads current (.integer n) := by
  intro type l h _
  rw [literal] at h
  cases hshape : type.trueType with
  | base b =>
    simp only [hshape] at h
    obtain ⟨text, htext, rfl⟩ := map_eq_ok.1 h
    cases b with
    | void | string => cases htext
    | bool =>
      obtain rfl := Except.ok.inj htext
      exact ⟨_, by simp only [literalTree, hshape], yields_atom (by split <;> decide)⟩
    | byte | i16 | i32 | i64 | double =>
      obtain rfl := Except.ok.inj htext
      exact ⟨_, by simp only [literalTree, hshape], yields_atom (atomic_integerText _)⟩
  | enum d =>
    simp only [hshape] at h
    obtain rfl := Except.ok.inj h
    exact ⟨_, by simp only [literalTree, hshape], yields_atom (atomic_integerText _)⟩
  | record kind d | list element | set element | map key value | typedef d =>
    simp only [hshape] at h
    cases h

theorem reads_double (x : Binary64) : Reads current (.double x) := by
  intro type l h _
  rw [literal] at h
  cases hshape : type.trueType with
  | base b =>
    simp only [hshape] at h
    obtain ⟨text, htext, rfl⟩ := map_eq_ok.1 h
    cases b with
    | double =>
      rw [baseText] at htext
      split at htext
      · obtain rfl := Except.ok.inj htext
        exact ⟨_, by simp only [literalTree, hshape], yields_atom (atomic_double x)⟩
      · cases htext
    | void | string | bool | byte | i16 | i32 | i64 => cases htext
  | enum d | record kind d | list element | set element | map key value | typedef d =>
    simp only [hshape] at h
    cases h

theorem reads_string (s : String) : Reads current (.string s) := by
  intro type l h _
  rw [literal] at h
  cases hshape : type.trueType with
  | base b =>
    simp only [hshape] at h
    obtain ⟨text, htext, rfl⟩ := map_eq_ok.1 h
    cases b with
    | string =>
      obtain rfl := Except.ok.inj htext
      exact ⟨_, by simp only [literalTree, hshape], yields_quote s⟩
    | void | double | bool | byte | i16 | i32 | i64 => cases htext
  | enum d | record kind d | list element | set element | map key value | typedef d =>
    simp only [hshape] at h
    cases h

theorem reads_list {items : List Literal} (ih : ∀ item ∈ items, Reads current item) :
    Reads current (.list items) := by
  intro type l h htype
  rw [literal] at h
  have htrue := htype.trueType
  cases hshape : type.trueType with
  | list element | set element =>
    simp only [hshape] at h htrue
    obtain ⟨parts, hparts, rfl⟩ := map_eq_ok.1 h
    have helement : element.PlainRecords := htrue.of_mentions (by first | exact .list | exact .set)
    obtain ⟨ts, hts, hyields⟩ := itemTrees_of_forall₂ helement ih (literals_eq_ok hparts)
    refine ⟨_, ?_, yields_composite (yields_atom (by decide)) (.each_line hyields)⟩
    simp only [literalTree, hshape, hts, Option.map_some]
    rfl
  | base b =>
    simp only [hshape] at h
    cases b <;> cases h
  | enum d | record kind d | map key value | typedef d =>
    simp only [hshape] at h
    cases h

theorem reads_map {entries : List (Literal × Literal)}
    (ih : ∀ entry ∈ entries, Reads current entry.1 ∧ Reads current entry.2) :
    Reads current (.map entries) := by
  intro type l h htype
  rw [literal] at h
  have htrue := htype.trueType
  cases hshape : type.trueType with
  | map key value =>
    simp only [hshape] at h htrue
    obtain ⟨parts, hparts, rfl⟩ := map_eq_ok.1 h
    obtain ⟨ts, hts, hyields⟩ := entryTrees_of_forall₂ (htrue.of_mentions .key)
      (htrue.of_mentions .value) ih (pairs_eq_ok hparts)
    refine ⟨_, ?_, yields_composite (yields_atom (by decide)) (.each_line hyields)⟩
    simp only [literalTree, hshape, hts, Option.map_some]
    rfl
  | record kind d =>
    simp only [hshape] at h htrue
    obtain ⟨parts, hparts, rfl⟩ := map_eq_ok.1 h
    obtain ⟨ts, groups, hts, rfl, hyields⟩ := fieldTrees_of_forall₂ htrue
      (fun entry hentry => (ih entry hentry).2) (assignments_eq_ok hparts)
    have hhead := yields_constructor (htrue kind d (.self _)) kind current
    refine ⟨_, ?_, yields_composite hhead (.lines hyields)⟩
    simp only [literalTree, hshape, hts, Option.map_some]
    rfl
  | base b =>
    simp only [hshape] at h
    cases b <;> cases h
  | enum d | list element | set element | typedef d =>
    simp only [hshape] at h
    cases h

theorem reads (v : Literal) : Reads current v := by
  induction v with
  | integer n => exact reads_integer n
  | double x => exact reads_double x
  | string s => exact reads_string s
  | list items ih => exact reads_list ih
  | map entries ih => exact reads_map ih

end Literals

/-- Where a literal can be written, its text is read as the tree that the type and the value
determine, and as nothing else. The records in it go by the name that their typespec has. -/
theorem literal_reads_back {current : ProgramInfo} {type : Ty} {v : Literal} {l : Layout}
    (hliteral : literal current type v = .ok l) (hplain : type.PlainRecords) :
    (∃ t, literalTree current type v = some t ∧ Reader.read l.render.toList = some [t]) ∧
      ∀ kind d, type.Mentions (.record kind d) →
        Reader.read (typespec current (.record kind d)).toList =
          some [.list [.atom "struct", .string (recordName d current)]] := by
  refine ⟨?_, fun kind d hd => ?_⟩
  · obtain ⟨t, ht, hyields⟩ := reads v hliteral hplain
    exact ⟨t, ht, read_render hyields⟩
  · exact read_text (yields_recordTypespec (hplain kind d hd) kind current)

/-- A record of another package with a list in it, whose items break a line and hold a quote, a
backslash and a parenthesis. -/
theorem literal_reads_back_folder :
    let folder : Record :=
      ⟨"Folder", some (({ name := "shared" } : ProgramInfo).withNamespace "cl" "shared.idl"),
        [⟨1, "names", Ty.typedef ⟨"Names", none, .list (.base .string), none⟩, none, none⟩], none⟩
    let value : Literal := .map [(.string "names", .list [.string "a\n  b", .string "\"(\\"])]
    ∃ l, literal { name := "main" } (.record .struct folder) value = .ok l ∧
      Reader.read l.render.toList = some [.list [.atom "make-instance",
        .quoted (.atom "shared.idl:folder"), .atom ":names",
        .list [.atom "thrift:list", .string "a\n  b", .string "\"(\\"]]] := by
  intro folder value
  have hplain : (Ty.record .struct folder).PlainRecords := by
    intro kind d hd
    cases hd with
    | self =>
      refine ⟨by decide, ?_, by decide⟩
      rintro info ⟨⟩ package hpackage
      obtain rfl := Option.some.inj hpackage
      decide
    | field hf hmentions =>
      obtain rfl := List.mem_singleton.1 hf
      cases hmentions with
      | typedef htarget =>
        cases htarget with
        | list helement => cases helement
  have hliteral : ∃ l, literal { name := "main" } (.record .struct folder) value = .ok l := ⟨_, rfl⟩
  obtain ⟨l, hl⟩ := hliteral
  obtain ⟨⟨t, ht, hread⟩, -⟩ := literal_reads_back hl hplain
  have hname : recordName folder { name := "main" } = "shared.idl:folder" := by decide +kernel
  have htree : literalTree { name := "main" } (.record .struct folder) value =
      some (.list [.atom "make-instance", .quoted (.atom (recordName folder { name := "main" })),
        .atom ":names", .list [.atom "thrift:list", .string "a\n  b", .string "\"(\\"]]) := rfl
  rw [hname] at htree
  obtain rfl := Option.some.inj (htree.symm.trans ht)
  exact ⟨l, hl, hread⟩

end IdlGen.Lisp
