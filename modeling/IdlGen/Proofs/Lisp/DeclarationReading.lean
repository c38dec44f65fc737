import IdlGen.Proofs.Lisp.LiteralReading
import IdlGen.Proofs.Lisp.Streams
import IdlGen.Proofs.Schema.Numbering

/-!
# Declarations read back

The form of a declaration is read as one list that holds the parts of the declaration: documentation,
fields, arguments, labels and methods in their order, types as the trees of their typespecs, and
defaults as the trees of their literals.
-/

namespace IdlGen

/-! ### Plain declarations -/

/-- A field, argument or throws case with plain names, also in its type. -/
def FieldOf.PlainNames (f : Field) : Prop := Plain f.name ∧ f.type.PlainNames

def Method.PlainNames (m : Method) : Prop :=
  Plain m.name ∧ (∀ f ∈ m.args, f.PlainNames) ∧ m.returns.PlainNames ∧
    ∀ f ∈ m.exceptions, f.PlainNames

/-- The names that a declaration brings into its form are plain. -/
def Definition.PlainNames : Definition → Prop
  | .typedef _ => True
  | .enum d => Plain d.name ∧ ∀ l ∈ d.labels, Plain l.name
  | .record kind d => (Ty.record kind d).PlainNames
  | .service d => Plain d.name ∧
      (∀ base, d.base = some base → Plain base.name ∧ PlainOwner base.owner) ∧
        ∀ m ∈ d.methods, m.PlainNames
  | .constant d => Plain d.name ∧ d.type.PlainRecords

namespace Lisp

open Reader

/-! ### Trees -/

/-- The tree of a field's default, or `nil`. -/
def defaultTree (current : ProgramInfo) (f : Field) : Option Sexp :=
  match f.default with
  | some value => literalTree current f.type value
  | none => some (.atom "nil")

/-- The keyword and text of a field's documentation, if there is any. -/
def fieldDocTrees (doc : Option String) : List Sexp :=
  match doc with
  | some doc => [.atom ":documentation", .string (docText doc)]
  | none => []

def fieldTree (current : ProgramInfo) (f : Field) : Option Sexp := do
  let value ← defaultTree current f
  pure (.list ([.string f.name, value, .atom ":type", typeTree current f.type, .atom ":id",
    .atom (integerText f.id.toInt)] ++ fieldDocTrees f.doc))

def recordTree (current : ProgramInfo) (kind : RecordKind) (d : Record) : Option Sexp := do
  let fields ← d.fields.mapM (fieldTree current)
  pure (.list ([.atom (declarator kind), .string (recordName d current)] ++
    d.doc.toList.map (fun doc => .string (docText doc)) ++ [.list fields]))

def argumentTree (current : ProgramInfo) (f : Field) : Sexp :=
  .list [.string f.name, typeTree current f.type, .atom (integerText f.id.toInt)]

/-- The keyword and field list of a throws clause, unless it is empty. -/
def exceptionTrees (current : ProgramInfo) (exceptions : List Field) : Option (List Sexp) :=
  if exceptions.isEmpty then some []
  else do
    let fields ← exceptions.mapM (fieldTree current)
    pure [.atom ":exceptions", .list fields]

def onewayTrees (oneway : Bool) : List Sexp :=
  if oneway then [.atom ":oneway", .atom "t"] else []

def methodTree (current : ProgramInfo) (m : Method) : Option Sexp := do
  let exceptions ← exceptionTrees current m.exceptions
  pure (.list ([.atom ":method", .string m.name,
    .list [.list (m.args.map (argumentTree current)), typeTree current m.returns]] ++
      exceptions ++ onewayTrees m.oneway))

/-- The name of a service's base, or `nil`. -/
def baseTree (current : ProgramInfo) (base : Option Service) : Sexp :=
  match base with
  | some s => .string (serviceName s current)
  | none => .atom "nil"

def serviceTree (current : ProgramInfo) (s : Service) : Option Sexp := do
  let methods ← s.methods.mapM (methodTree current)
  pure (.list ([.atom "thrift:def-service", .string s.name, baseTree current s.base] ++
    s.doc.toList.map (fun doc => .list [.atom ":documentation", .string (docText doc)]) ++ methods))

def labelTree (label : String × Int64) : Sexp :=
  .list [.string label.1, .atom ".", .atom (integerText label.2.toInt)]

def enumTree (d : EnumDef) : Sexp :=
  .list [.atom "thrift:def-enum", .string d.name, .list (d.numbering.map labelTree)]

def constantTree (current : ProgramInfo) (c : Constant) : Option Sexp := do
  let value ← literalTree current c.type c.value
  pure (.list [.atom "thrift:def-constant", .string c.name, value])

/-- What the form of a declaration is read as. -/
def declarationTree (info : ProgramInfo) : Definition → Option Sexp
  | .typedef _ => none
  | .enum d => some (enumTree d)
  | .record kind d => recordTree info kind d
  | .service d => serviceTree info d
  | .constant d => constantTree info d

/-! ### Fields -/

section Forms

variable {current : ProgramInfo}

theorem yields_default {f : Field} {value : Layout} (hf : f.PlainNames)
    (h : defaultValue current f = .ok value) :
    ∃ t, defaultTree current f = some t ∧ Yields value [t] := by
  unfold defaultValue at h
  unfold defaultTree
  cases hdefault : f.default with
  | some literal =>
    simp only [hdefault] at h
    exact reads literal h hf.2.1
  | none =>
    simp only [hdefault] at h
    obtain rfl := Except.ok.inj h
    exact ⟨_, rfl, yields_atom (by decide)⟩

theorem follows_fieldDoc (doc : Option String) : Follows (fieldDoc doc) (fieldDocTrees doc) := by
  cases doc with
  | none => exact Follows.empty
  | some doc =>
    have hkeyword := blank_space.append (yields_atom (t := ":documentation") (by decide))
    refine (hkeyword.append (blank_space.append (yields_docLiteral doc))).congr fun s => ?_
    have hsplit : " :documentation " = " " ++ (":documentation" ++ " ") := rfl
    rw [readLayout_append, readLayout_texts, readLayout_texts, ← readLayout_text_append, fieldDoc,
      hsplit]
    simp only [String.append_assoc]

theorem yields_fieldEntry {f : Field} {part : Layout} (hf : f.PlainNames)
    (h : fieldEntry current f = .ok part) :
    ∃ t, fieldTree current f = some t ∧ Yields part [t] := by
  obtain ⟨value, hvalue, h⟩ := bind_eq_ok.1 h
  obtain rfl := pure_eq_ok.1 h
  obtain ⟨v, hv, hyields⟩ := yields_default hf hvalue
  refine ⟨_, by rw [fieldTree, hv]; rfl, ?_⟩
  have hparts : YieldsEach
      [.text (symbol f.name), value, .text ":type", .text (typespec current f.type), .text ":id",
        .text (integerText f.id.toInt)]
      [.string f.name, v, .atom ":type", typeTree current f.type, .atom ":id",
        .atom (integerText f.id.toInt)] :=
    .cons (yields_symbol (Atomic.of_plain hf.1).2) <| .cons hyields <|
      .cons (yields_atom (by decide)) <| .cons (yields_typespec current hf.2) <|
      .cons (yields_atom (by decide)) <| .cons (yields_atom (atomic_integerText _)) .nil
  refine ((Yields.join blank_space hparts).append (follows_fieldDoc f.doc)).parens.congr fun s => ?_
  have hsplitType : " :type " = " " ++ (":type" ++ " ") := rfl
  have hsplitId : " :id " = " " ++ (":id" ++ " ") := rfl
  rw [hsplitType, hsplitId]
  simp only [Layout.join, parens, readLayout_append, readLayout_text_append, Option.bind_assoc]

theorem yields_aligned {entries : List Layout} {forms : List Sexp}
    (h : YieldsEach entries forms) :
    Yields (aligned entries) [.list forms] :=
  (Yields.join blank_line h).parens.congr fun s => by
    simp only [aligned, parens, readLayout_append, readLayout_align]

theorem yields_fieldList {fields : List Field} {part : Layout}
    (hfields : ∀ f ∈ fields, f.PlainNames) (h : fieldList current fields = .ok part) :
    ∃ ts, fields.mapM (fieldTree current) = some ts ∧ Yields part [.list ts] := by
  obtain ⟨entries, hentries, rfl⟩ := map_eq_ok.1 h
  obtain ⟨ts, hts, hall⟩ := yields_each hentries fun f hf part hpart =>
    yields_fieldEntry (hfields f hf) hpart
  exact ⟨ts, hts, yields_aligned hall⟩

/-! ### Records -/

theorem follows_docLine (wrap : String → String) (tree : String → Sexp)
    (hwrap : ∀ doc, Yields (.text (wrap (docLiteral doc))) [tree doc]) (doc : Option String) :
    Follows (docLine wrap doc) (doc.toList.map tree) := by
  cases doc with
  | none => exact Follows.empty
  | some doc => exact blank_line.append (hwrap doc)

theorem plainNames_fields {kind : RecordKind} {d : Record} (hd : (Ty.record kind d).PlainNames) :
    ∀ f ∈ d.fields, f.PlainNames := by
  intro f hf
  obtain ⟨-, -, hnames⟩ := hd.1 kind d (.self _)
  exact ⟨hnames f hf, hd.of_mentions (.field hf)⟩

theorem yields_recordForm {kind : RecordKind} {d : Record} {part : Layout}
    (hd : (Ty.record kind d).PlainNames) (h : recordForm current kind d = .ok part) :
    ∃ t, recordTree current kind d = some t ∧ Yields part [t] := by
  obtain ⟨fields, hfields, h⟩ := bind_eq_ok.1 h
  obtain rfl := pure_eq_ok.1 h
  obtain ⟨ts, hts, hyields⟩ := yields_fieldList (plainNames_fields hd) hfields
  refine ⟨_, by rw [recordTree, hts]; rfl, ?_⟩
  have hname := atomic_recordName (hd.1 kind d (.self _)) current
  have hhead : Yields (.text (declarator kind ++ " " ++ symbol (recordName d current)))
      [.atom (declarator kind), .string (recordName d current)] := by
    have hdeclarator : Atomic (declarator kind) := by cases kind <;> decide
    refine ((yields_atom hdeclarator).append
      (blank_space.append (yields_symbol hname.2))).congr fun s => ?_
    rw [readLayout_append, readLayout_texts, ← readLayout_text_append, String.append_assoc]
  have hdoc := follows_docLine id _ yields_docLiteral d.doc
  refine ((hhead.append hdoc).append (blank_line.append hyields)).parens.congr fun s => ?_
  simp only [parens, readLayout_append, readLayout_indent, readLayout_text_append,
    Option.bind_assoc]

/-! ### Services -/

theorem yields_argument {f : Field} (hf : f.PlainNames) :
    Yields (.text (argument current f)) [argumentTree current f] := by
  have hparts : YieldsEach
      [.text (symbol f.name), .text (typespec current f.type), .text (integerText f.id.toInt)]
      [.string f.name, typeTree current f.type, .atom (integerText f.id.toInt)] :=
    .cons (yields_symbol (Atomic.of_plain hf.1).2) <| .cons (yields_typespec current hf.2) <|
      .cons (yields_atom (atomic_integerText _)) .nil
  refine (Yields.join blank_space hparts).parens.congr fun s => ?_
  rw [argument]
  simp only [Layout.join, parens, readLayout_append, readLayout_text_append, Option.bind_assoc]

theorem yields_argumentList {args : List Field} (hargs : ∀ f ∈ args, f.PlainNames) :
    Yields (.text (argumentList current args)) [.list (args.map (argumentTree current))] := by
  have hinner : Yields (.text (" ".intercalate (args.map (argument current))))
      (args.map (argumentTree current)) :=
    yields_intercalate fun f hf => yields_argument (hargs f hf)
  refine hinner.parens.congr fun s => ?_
  rw [argumentList]
  simp only [parens, readLayout_append, readLayout_text_append]

theorem follows_exceptionsLine {exceptions : List Field} {part : Layout}
    (hexceptions : ∀ f ∈ exceptions, f.PlainNames)
    (h : exceptionsLine current exceptions = .ok part) :
    ∃ ts, exceptionTrees current exceptions = some ts ∧ Follows part ts := by
  unfold exceptionsLine at h
  unfold exceptionTrees
  split at h
  · rename_i hempty
    obtain rfl := Except.ok.inj h
    exact ⟨[], if_pos hempty, Follows.empty⟩
  · rename_i hsome
    obtain ⟨fields, hfields, h⟩ := bind_eq_ok.1 h
    obtain rfl := pure_eq_ok.1 h
    obtain ⟨ts, hts, hyields⟩ := yields_fieldList hexceptions hfields
    refine ⟨[.atom ":exceptions", .list ts], by rw [if_neg hsome, hts]; rfl, ?_⟩
    have hkeyword := blank_space.append (yields_atom (t := ":exceptions") (by decide))
    refine ((blank_line.append hkeyword.yields).append (blank_space.append hyields)).congr
      fun s => ?_
    have hsplit : " :exceptions " = " " ++ (":exceptions" ++ " ") := rfl
    rw [hsplit]
    simp only [readLayout_append, readLayout_text_append, Option.bind_assoc]
    rfl

theorem follows_onewayLine (oneway : Bool) : Follows (onewayLine oneway) (onewayTrees oneway) := by
  cases oneway with
  | false => exact Follows.empty
  | true =>
    have hkeyword := blank_space.append (yields_atom (t := ":oneway") (by decide))
    have hvalue := blank_space.append (yields_atom (t := "t") (by decide))
    have htext : Follows (.text " :oneway t") [.atom ":oneway", .atom "t"] := by
      refine (hkeyword.append hvalue).congr fun s => ?_
      rw [readLayout_append, readLayout_texts, readLayout_texts, ← readLayout_text_append]
      rfl
    exact blank_line.append htext.yields

theorem yields_signature {m : Method} (hm : m.PlainNames) :
    Yields (.text ("(" ++ argumentList current m.args ++ " " ++ typespec current m.returns ++ ")"))
      [.list [.list (m.args.map (argumentTree current)), typeTree current m.returns]] := by
  obtain ⟨-, hargs, hreturns, -⟩ := hm
  refine ((yields_argumentList hargs).append
    (blank_space.append (yields_typespec current hreturns))).parens.congr fun s => ?_
  simp only [parens, readLayout_append, readLayout_text_append, Option.bind_assoc]

theorem yields_methodClause {m : Method} {part : Layout} (hm : m.PlainNames)
    (h : methodClause current m = .ok part) :
    ∃ t, methodTree current m = some t ∧ Yields part [t] := by
  obtain ⟨exceptions, hexceptions, h⟩ := bind_eq_ok.1 h
  obtain rfl := pure_eq_ok.1 h
  obtain ⟨ts, hts, hfollows⟩ := follows_exceptionsLine hm.2.2.2 hexceptions
  refine ⟨_, by rw [methodTree, hts]; rfl, ?_⟩
  have hparts : YieldsEach
      [.text ":method", .text (symbol m.name),
        .text ("(" ++ argumentList current m.args ++ " " ++ typespec current m.returns ++ ")")]
      [.atom ":method", .string m.name,
        .list [.list (m.args.map (argumentTree current)), typeTree current m.returns]] :=
    .cons (yields_atom (by decide)) <| .cons (yields_symbol (Atomic.of_plain hm.1).2) <|
      .cons (yields_signature hm) .nil
  refine (((Yields.join blank_space hparts).append hfollows).append
    (follows_onewayLine m.oneway)).parens.congr fun s => ?_
  have hsplitHead : "(:method " = "(" ++ (":method" ++ " ") := rfl
  have hsplitArgs : " (" = " " ++ "(" := rfl
  rw [hsplitHead, hsplitArgs]
  simp only [Layout.join, parens, readLayout_append, readLayout_text_append, Option.bind_assoc]

theorem yields_baseName {base : Option Service}
    (hbase : ∀ s, base = some s → Plain s.name ∧ PlainOwner s.owner) :
    Yields (.text (baseName current base)) [baseTree current base] := by
  cases base with
  | none => exact yields_atom (t := "nil") (by decide)
  | some s =>
    obtain ⟨hname, howner⟩ := hbase s rfl
    exact yields_symbol (atomic_qualify hname howner current).2

theorem yields_serviceForm {s : Service} {part : Layout}
    (hs : (Definition.service s).PlainNames) (h : serviceForm current s = .ok part) :
    ∃ t, serviceTree current s = some t ∧ Yields part [t] := by
  obtain ⟨methods, hmethods, h⟩ := bind_eq_ok.1 h
  obtain rfl := pure_eq_ok.1 h
  obtain ⟨hname, hbase, hplain⟩ := hs
  obtain ⟨ts, hts, hall⟩ := yields_each hmethods fun m hm part hpart =>
    yields_methodClause (hplain m hm) hpart
  refine ⟨_, by rw [serviceTree, hts]; rfl, ?_⟩
  have hparts : YieldsEach
      [.text "thrift:def-service", .text (symbol s.name), .text (baseName current s.base)]
      [.atom "thrift:def-service", .string s.name, baseTree current s.base] :=
    .cons (yields_atom (by decide)) <| .cons (yields_symbol (Atomic.of_plain hname).2) <|
      .cons (yields_baseName hbase) .nil
  have hdoc := follows_docLine (fun doc => "(:documentation " ++ doc ++ ")")
    (fun doc => .list [.atom ":documentation", .string (docText doc)])
    (fun doc => yields_headed ":documentation" (by decide) (yields_docLiteral doc)) s.doc
  refine (((Yields.join blank_space hparts).append hdoc).append
    (Follows.each_line hall)).parens.congr fun state => ?_
  have hsplit : "(thrift:def-service " = "(" ++ ("thrift:def-service" ++ " ") := rfl
  rw [hsplit]
  simp only [Layout.join, parens, readLayout_append, readLayout_indent, readLayout_text_append,
    Option.bind_assoc]

/-! ### Enums and constants -/

theorem yields_labelPair {label : String × Int64} (hlabel : Plain label.1) :
    Yields (labelPair label) [labelTree label] := by
  have hparts : YieldsEach
      [.text (symbol label.1), .text ".", .text (integerText label.2.toInt)]
      [.string label.1, .atom ".", .atom (integerText label.2.toInt)] :=
    .cons (yields_symbol (Atomic.of_plain hlabel).2) <| .cons (yields_atom (by decide)) <|
      .cons (yields_atom (atomic_integerText _)) .nil
  refine (Yields.join blank_space hparts).parens.congr fun s => ?_
  have hsplit : " . " = " " ++ ("." ++ " ") := rfl
  rw [labelPair, hsplit]
  simp only [Layout.join, parens, readLayout_append, readLayout_text_append, Option.bind_assoc]

theorem yields_enumForm {d : EnumDef} (hd : (Definition.enum d).PlainNames) :
    Yields (enumForm d) [enumTree d] := by
  have hlabels : ∀ label ∈ d.numbering, Plain label.1 := by
    intro label hlabel
    have hname : label.1 ∈ d.labels.map (·.name) := by
      rw [← EnumDef.numberFrom_names (-1)]
      exact List.mem_map_of_mem hlabel
    obtain ⟨l, hl, hsame⟩ := List.mem_map.1 hname
    rw [← hsame]
    exact hd.2 l hl
  have hpairs : YieldsEach (d.numbering.map labelPair) (d.numbering.map labelTree) :=
    yieldsEach_map fun label hlabel => yields_labelPair (hlabels label hlabel)
  have hparts : YieldsEach
      [.text "thrift:def-enum", .text (symbol d.name)] [.atom "thrift:def-enum", .string d.name] :=
    .cons (yields_atom (by decide)) <| .cons (yields_symbol (Atomic.of_plain hd.1).2) .nil
  refine ((Yields.join blank_space hparts).append
    (blank_line.append (yields_aligned hpairs))).parens.congr fun s => ?_
  have hsplit : "(thrift:def-enum " = "(" ++ ("thrift:def-enum" ++ " ") := rfl
  rw [enumForm, hsplit]
  simp only [Layout.join, parens, readLayout_append, readLayout_indent, readLayout_text_append,
    Option.bind_assoc]

theorem yields_constantForm {c : Constant} {part : Layout}
    (hc : (Definition.constant c).PlainNames) (h : constantForm current c = .ok part) :
    ∃ t, constantTree current c = some t ∧ Yields part [t] := by
  obtain ⟨value, hvalue, h⟩ := bind_eq_ok.1 h
  obtain rfl := pure_eq_ok.1 h
  obtain ⟨t, ht, hyields⟩ := reads _ hvalue hc.2
  refine ⟨_, by rw [constantTree, ht]; rfl, ?_⟩
  have hparts : YieldsEach
      [.text "thrift:def-constant", .text (symbol c.name), value]
      [.atom "thrift:def-constant", .string c.name, t] :=
    .cons (yields_atom (by decide)) <| .cons (yields_symbol (Atomic.of_plain hc.1).2) <|
      .cons hyields .nil
  refine (Yields.join blank_space hparts).parens.congr fun s => ?_
  have hsplit : "(thrift:def-constant " = "(" ++ ("thrift:def-constant" ++ " ") := rfl
  rw [hsplit]
  simp only [Layout.join, parens, readLayout_append, readLayout_text_append, Option.bind_assoc]

/-- The form of a declaration, if it has one, is read as its tree. -/
theorem yields_form {info : ProgramInfo} {d : Definition} {part : Layout} (hd : d.PlainNames)
    {stream : Stream}
    (hstream : d.stream? = some stream) (h : form info d = .ok part) :
    ∃ t, declarationTree info d = some t ∧ Yields part [t] := by
  cases d with
  | typedef d => cases hstream
  | enum d =>
    obtain rfl := Except.ok.inj h
    exact ⟨enumTree d, rfl, yields_enumForm hd⟩
  | record kind d => exact yields_recordForm hd h
  | service d => exact yields_serviceForm hd h
  | constant d => exact yields_constantForm hd h

end Forms

/-! ### Declarations -/

/-- If a declaration has a form, its text is read as the tree of the declaration and as nothing else,
whatever documentation and string constants say. -/
theorem declaration_reads_back {info : ProgramInfo} {d : Definition} {stream : Stream} {part : Layout}
    (hplain : d.PlainNames) (hstream : d.stream? = some stream) (hform : form info d = .ok part) :
    ∃ t, declarationTree info d = some t ∧ Reader.read part.render.toList = some [t] := by
  obtain ⟨t, ht, hyields⟩ := yields_form hplain hstream hform
  exact ⟨t, ht, read_render hyields⟩

/-- A service on top of one from another package. Its documentation ends in a backslash, and the default
of an exception goes over two lines. -/
theorem declaration_reads_back_clerk :
    let office : ProgramInfo := ({ name := "office" } : ProgramInfo).withNamespace "cl" "office-1"
    let desk : Service := { name := "Desk", owner := some office }
    let text : Ty := .base .string
    let file : Method :=
      { name := "file", returns := .base .void, oneway := true
        args := [⟨1, "page", text, none, none⟩, ⟨2, "times", .base .i32, none, some "not shown"⟩]
        exceptions := [⟨3, "lost", .list text, some (.list [.string "a", .string "\")"]),
          some "says \"gone\""⟩] }
    let clerk : Service :=
      { name := "Clerk", base := some desk, methods := [file], doc := some "from\n\"A:\\\" to C:\\" }
    ∃ part, form { name := "main" } (.service clerk) = .ok part ∧
      Reader.read part.render.toList = some [.list
        [.atom "thrift:def-service", .string "Clerk", .string "office-1:Desk",
          .list [.atom ":documentation", .string "from\n'A:\\' to C:\\"],
          .list [.atom ":method", .string "file",
            .list [.list
                [.list [.string "page", .atom "string", .atom "1"],
                  .list [.string "times", .atom "i32", .atom "2"]],
              .atom "void"],
            .atom ":exceptions", .list [.list
              [.string "lost", .list [.atom "thrift:list", .string "a", .string "\")"],
                .atom ":type", .list [.atom "list", .atom "string"], .atom ":id", .atom "3",
                .atom ":documentation", .string "says 'gone'"]],
            .atom ":oneway", .atom "t"]]] := by
  intro office desk text file clerk
  have hnames : ∀ b : BaseType, (Ty.base b).PlainNames := by
    intro b
    refine ⟨fun kind d hd => ?_, fun d hd => ?_⟩ <;> cases hd
  have hlist : (Ty.list (.base .string)).PlainNames := by
    refine ⟨fun kind d hd => ?_, fun d hd => ?_⟩ <;> cases hd with
    | list helement => cases helement
  have hfile : file.PlainNames := by
    refine ⟨by decide, ?_, hnames _, ?_⟩
    · refine List.forall_mem_cons.2
        ⟨⟨by decide, hnames _⟩, List.forall_mem_cons.2 ⟨⟨by decide, hnames _⟩, ?_⟩⟩
      exact fun f hf => absurd hf List.not_mem_nil
    · refine List.forall_mem_cons.2 ⟨⟨by decide, hlist⟩, ?_⟩
      exact fun f hf => absurd hf List.not_mem_nil
  have hplain : (Definition.service clerk).PlainNames := by
    refine ⟨by decide, ?_, ?_⟩
    · rintro base ⟨⟩
      refine ⟨by decide, ?_⟩
      rintro info ⟨⟩ package hpackage
      obtain rfl := Option.some.inj hpackage
      decide
    · exact List.forall_mem_cons.2 ⟨hfile, fun m hm => absurd hm List.not_mem_nil⟩
  have hform : ∃ part, form { name := "main" } (.service clerk) = .ok part := ⟨_, rfl⟩
  obtain ⟨part, hform⟩ := hform
  have hstream : (Definition.service clerk).stream? = some .types := rfl
  obtain ⟨t, ht, hread⟩ := declaration_reads_back hplain hstream hform
  have hbase : serviceName desk { name := "main" } = "office-1:Desk" := by decide +kernel
  have hdoc : docText "from\n\"A:\\\" to C:\\" = "from\n'A:\\' to C:\\" := by decide +kernel
  have hnote : docText "says \"gone\"" = "says 'gone'" := by decide +kernel
  have hnumbers : integerText 1 = "1" ∧ integerText 2 = "2" ∧ integerText 3 = "3" := by decide +kernel
  rw [← hbase, ← hdoc, ← hnote, ← hnumbers.1, ← hnumbers.2.1, ← hnumbers.2.2]
  obtain rfl := Option.some.inj ht
  exact ⟨part, hform, hread⟩

end Lisp

end IdlGen
