import IdlGen.Proofs.Lisp.DeclarationReading
import IdlGen.Proofs.Lisp.Packages
import IdlGen.Proofs.Text.Utf8

/-!
# Streams read back

Each form ends in a blank line, which brings the reader back between forms also from the comment at
the top. So a stream is read form by form: the package forms, and then one list for each declaration
that goes there.
-/

namespace IdlGen

/-- All names and packages that a program brings into its streams are plain. -/
def Program.PlainNames (p : Program) : Prop :=
  p.info.PlainPackage ∧ (∀ info ∈ p.includes, info.PlainPackage) ∧ ∀ d ∈ p.definitions, d.PlainNames

namespace Lisp

open Reader

namespace Reader

/-! ### Bytes that are read -/

/-- The bytes of a text that, read between forms, adds these forms and ends between forms. -/
def Holds (bytes : List UInt8) (forms : List Sexp) : Prop :=
  ∃ text, bytes = Utf8.encode text ∧
    ∀ s : State, s.mode = .between → run text s = some (s.addAll forms)

theorem Holds.nil : Holds [] [] := ⟨[], rfl, fun _ _ => rfl⟩

theorem Holds.append {first second : List UInt8} {fs gs : List Sexp} (hfirst : Holds first fs)
    (hsecond : Holds second gs) : Holds (first ++ second) (fs ++ gs) := by
  obtain ⟨text, rfl, hrun⟩ := hfirst
  obtain ⟨more, rfl, hmore⟩ := hsecond
  refine ⟨text ++ more, (Utf8.encode_append text more).symm, fun s hs => ?_⟩
  rw [run_append, hrun s hs, Option.bind_some, hmore _ (by rw [State.mode_addAll, hs]),
    State.addAll_append]

/-- What may stand on a stream by itself: read between forms it leaves the reader between forms, in
an atom or in a comment, so that a line break ends it. -/
theorem holds_of_break {l : Layout} {forms : List Sexp}
    (h : ∀ s : State, s.mode = .between → ∃ s', readLayout l s = some s' ∧
      step s' '\n' = some (s.addAll forms)) : Holds l.bytes forms := by
  refine ⟨(l.print 0 {}).1 ++ ['\n', '\n'], (Utf8.encode_append _ _).symm, fun s hs => ?_⟩
  obtain ⟨s', hread, hbreak⟩ := h s hs
  have hrun := (run_print 0 {} hread fun howed => absurd rfl howed).1
  have hbetween : (s.addAll forms).mode = .between := by rw [State.mode_addAll, hs]
  have hblank : step (s.addAll forms) '\n' = some (s.addAll forms) := by
    simp only [step, hbetween]
    rfl
  -- The first line break ends what is unfinished, and the second one goes unnoticed.
  rw [run_append, hrun, Option.bind_some, run_cons, hbreak, Option.bind_some, run_cons, hblank]
  rfl

theorem Holds.of_yields {l : Layout} {forms : List Sexp} (h : Yields l forms) :
    Holds l.bytes forms := by
  refine holds_of_break fun s hs => ?_
  obtain ⟨s', hread, hs'⟩ := h s hs
  have hbetween : (s.addAll forms).mode = .between := by rw [State.mode_addAll, hs]
  refine ⟨s', hread, ?_⟩
  rw [← step_settle (by decide), hs']
  simp only [step, hbetween]
  rfl

/-! ### The beginning of a stream -/

theorem run_comment {cs : List Char} (hcs : '\n' ∉ cs) (level : Level) (outer : List Level) :
    run cs ⟨.comment, level, outer⟩ = some ⟨.comment, level, outer⟩ := by
  induction cs with
  | nil => rfl
  | cons c cs ih =>
    obtain ⟨hc, hcs⟩ := not_or.1 (mt List.mem_cons.2 hcs)
    have hstep : step ⟨.comment, level, outer⟩ c = some ⟨.comment, level, outer⟩ := by
      simp only [step, if_neg (Ne.symm hc)]
    rw [run_cons, hstep]
    exact ih hcs

theorem readLayout_comment {t : String} {cs : List Char} (ht : t.toList = ';' :: cs)
    (hcs : '\n' ∉ cs) (level : Level) (outer : List Level) :
    readLayout (.text t) ⟨.between, level, outer⟩ = some ⟨.comment, level, outer⟩ := by
  rw [readLayout, ht, run_cons]
  exact run_comment hcs level outer

/-- Lines of comment leave the reader in a comment. -/
theorem readLayout_comments (t : String) (texts : List String)
    (h : ∀ line ∈ t :: texts, ∃ cs, line.toList = ';' :: cs ∧ '\n' ∉ cs) (level : Level)
    (outer : List Level) :
    readLayout (Layout.join .line ((t :: texts).map .text)) ⟨.between, level, outer⟩ =
      some ⟨.comment, level, outer⟩ := by
  induction texts generalizing t with
  | nil =>
    obtain ⟨cs, ht, hcs⟩ := h t List.mem_cons_self
    exact readLayout_comment ht hcs level outer
  | cons next texts ih =>
    obtain ⟨⟨cs, ht, hcs⟩, hmore⟩ := List.forall_mem_cons.1 h
    simp only [List.map_cons, Layout.join, readLayout_append,
      readLayout_comment ht hcs level outer, Option.bind_some]
    exact ih next hmore

theorem not_mem_of_plain {name : String} (hname : Plain name) : '\n' ∉ name.toList := by
  intro hmem
  exact absurd (List.all_eq_true.1 hname.2 _ hmem) (by decide)

end Reader

theorem holds_header {package : String} (hpackage : Plain package) :
    Holds (header package).bytes [] := by
  refine holds_of_break ?_
  rintro ⟨mode, level, outer⟩ hs
  obtain rfl : mode = .between := hs
  refine ⟨⟨.comment, level, outer⟩, ?_, rfl⟩
  refine readLayout_comments (";;; -*- Package: " ++ package ++ " -*-")
    [";;;", ";;; Autogenerated by Thrift",
      ";;; DO NOT EDIT UNLESS YOU ARE SURE THAT YOU KNOW WHAT YOU ARE DOING"] ?_ level outer
  have hfirst : '\n' ∉ (";; -*- Package: " ++ package ++ " -*-").toList := by
    simp only [String.toList_append, List.mem_append, not_or]
    exact ⟨⟨by decide, not_mem_of_plain hpackage⟩, by decide⟩
  refine List.forall_mem_cons.2 ⟨⟨_, by simp, hfirst⟩, ?_⟩
  refine List.forall_mem_cons.2 ⟨⟨_, rfl, by decide⟩, ?_⟩
  refine List.forall_mem_cons.2 ⟨⟨_, rfl, by decide⟩, ?_⟩
  exact List.forall_mem_cons.2 ⟨⟨_, rfl, by decide⟩, fun line hline => absurd hline List.not_mem_nil⟩

theorem plain_usedPackages {own : String} {includes : List ProgramInfo}
    (hincludes : ∀ info ∈ includes, info.PlainPackage) :
    ∀ package ∈ usedPackages own includes, Plain package := by
  intro package hpackage
  obtain ⟨-, info, hinfo, rfl⟩ := mem_usedPackages.1 hpackage
  exact plain_packageOf (hincludes info hinfo)

def packageTree (p : Program) : Sexp :=
  let used := usedPackages (packageOf p.info) p.includes
  .list ([.atom "thrift:def-package", .atom (":" ++ packageOf p.info)] ++
    if used.isEmpty then []
    else [.atom ":use", .list (used.map fun package => .atom (":" ++ package))])

def inPackageTree (p : Program) : Sexp :=
  .list [.atom "in-package", .atom (":" ++ packageOf p.info)]

theorem yields_packageForm {p : Program} (hinfo : p.info.PlainPackage)
    (hincludes : ∀ info ∈ p.includes, info.PlainPackage) :
    Yields (packageForm p) [packageTree p] := by
  have hown := Atomic.keyword (plain_packageOf hinfo)
  have hused : ∀ package ∈ usedPackages (packageOf p.info) p.includes, Plain package :=
    plain_usedPackages hincludes
  have hhead : YieldsEach
      [.text "thrift:def-package", .text (":" ++ packageOf p.info)]
      [.atom "thrift:def-package", .atom (":" ++ packageOf p.info)] :=
    .cons (yields_atom (by decide)) <| .cons (yields_atom hown) .nil
  have hpackages : Yields
      (.text (" ".intercalate ((usedPackages (packageOf p.info) p.includes).map (":" ++ ·))))
      ((usedPackages (packageOf p.info) p.includes).map fun package => .atom (":" ++ package)) :=
    yields_intercalate fun package hpackage => yields_atom (Atomic.keyword (hused package hpackage))
  have hsplit : "(thrift:def-package :" = "(" ++ ("thrift:def-package" ++ (" " ++ ":")) := rfl
  unfold packageForm packageTree
  dsimp only
  split
  · refine (Yields.join blank_space hhead).parens.congr fun s => ?_
    rw [hsplit]
    simp only [Layout.join, parens, readLayout_append, readLayout_text_append, Option.bind_assoc]
  · have huse := (blank_space.append (yields_atom (t := ":use") (by decide))).append
      (blank_space.append hpackages.parens)
    refine ((Yields.join blank_space hhead).append huse).parens.congr fun s => ?_
    have hsplitUse : " :use (" = " " ++ (":use" ++ (" " ++ "(")) := rfl
    have hsplitEnd : readLayout (.text "))") =
        fun s => (readLayout (.text ")") s).bind (readLayout (.text ")")) :=
      funext (readLayout_text_append ")" ")")
    rw [hsplit, hsplitUse]
    simp only [Layout.join, parens, readLayout_append, readLayout_text_append, hsplitEnd,
      Option.bind_assoc]

theorem yields_inPackageForm {p : Program} (hp : p.PlainNames) :
    Yields (inPackageForm (packageOf p.info)) [inPackageTree p] := by
  have hparts : YieldsEach
      [.text "in-package", .text (":" ++ packageOf p.info)]
      [.atom "in-package", .atom (":" ++ packageOf p.info)] :=
    .cons (yields_atom (by decide)) <|
      .cons (yields_atom (Atomic.keyword (plain_packageOf hp.1))) .nil
  refine (Yields.join blank_space hparts).parens.congr fun s => ?_
  have hsplit : "(in-package :" = "(" ++ ("in-package" ++ (" " ++ ":")) := rfl
  rw [inPackageForm, hsplit]
  simp only [Layout.join, parens, readLayout_append, readLayout_text_append, Option.bind_assoc]

/-- What is read of the beginning of a stream. -/
def preambleTrees (p : Program) : Stream → List Sexp
  | .types => [packageTree p, inPackageTree p]
  | .vars => [inPackageTree p]

theorem holds_preamble {p : Program} (hp : p.PlainNames) (stream : Stream) :
    Holds ((preamble p.info p.includes stream).flatMap Layout.bytes) (preambleTrees p stream) := by
  have hheader := holds_header (plain_packageOf hp.1)
  have hpackage : Holds (packageForm { info := p.info, includes := p.includes }).bytes
      [packageTree p] := Holds.of_yields (yields_packageForm hp.1 hp.2.1)
  have hin := Holds.of_yields (yields_inPackageForm hp)
  cases stream with
  | types => exact hheader.append (hpackage.append (hin.append Holds.nil))
  | vars => exact hheader.append (hin.append Holds.nil)

/-! ### Declarations on a stream -/

theorem holds_declarations {info : ProgramInfo} {stream : Stream} {ds : List Definition}
    (hplain : ∀ d ∈ ds, d.PlainNames) (hstream : ∀ d ∈ ds, d.stream? = some stream)
    (hforms : ∀ d ∈ ds, ∃ f, form info d = .ok f) :
    ∃ trees, List.Forall₂ (fun d t => declarationTree info d = some t) ds trees ∧
      Holds (ds.flatMap (formBytes info)) trees := by
  induction ds with
  | nil => exact ⟨[], .nil, Holds.nil⟩
  | cons d ds ih =>
    obtain ⟨hd, hds⟩ := List.forall_mem_cons.1 hplain
    obtain ⟨hon, hons⟩ := List.forall_mem_cons.1 hstream
    obtain ⟨⟨f, hf⟩, hfs⟩ := List.forall_mem_cons.1 hforms
    obtain ⟨t, ht, hyields⟩ := yields_form hd hon hf
    obtain ⟨trees, htrees, hholds⟩ := ih hds hons hfs
    refine ⟨t :: trees, .cons ht htrees, ?_⟩
    have hbytes : formBytes info d = f.bytes := by rw [formBytes, hf]
    rw [List.flatMap_cons, hbytes]
    exact (Holds.of_yields hyields).append hholds

/-- What Lisp reads on a stream: forms, if the bytes are a text that can be read to its end. -/
def readStream (s : Sink) (stream : Stream) : Option (List Sexp) :=
  (Utf8.decode? (s.contents stream)).bind Reader.read

theorem readStream_of_holds {s : Sink} {stream : Stream} {forms : List Sexp}
    (h : Holds (s.contents stream) forms) : readStream s stream = some forms := by
  obtain ⟨text, hbytes, hrun⟩ := h
  rw [readStream, hbytes, Utf8.decode?_encode, Option.bind_some, Reader.read, hrun {} rfl,
    Option.bind_some, finish_addAll]

/-- The form defines the declaration: it is a list that begins with the head for such declarations
and with the name, which records have in lower case. -/
inductive Declares (info : ProgramInfo) : Definition → Sexp → Prop where
  | enum (d : EnumDef) (rest : List Sexp) :
      Declares info (.enum d) (.list (.atom "thrift:def-enum" :: .string d.name :: rest))
  | struct (d : Record) (rest : List Sexp) :
      Declares info (.record .struct d)
        (.list (.atom "thrift:def-struct" :: .string (recordName d info) :: rest))
  | exception (d : Record) (rest : List Sexp) :
      Declares info (.record .exception d)
        (.list (.atom "thrift:def-exception" :: .string (recordName d info) :: rest))
  | service (d : Service) (rest : List Sexp) :
      Declares info (.service d) (.list (.atom "thrift:def-service" :: .string d.name :: rest))
  | constant (d : Constant) (rest : List Sexp) :
      Declares info (.constant d) (.list (.atom "thrift:def-constant" :: .string d.name :: rest))

theorem declares_of_tree {info : ProgramInfo} {d : Definition} {t : Sexp}
    (h : declarationTree info d = some t) : Declares info d t := by
  cases d with
  | typedef d => cases h
  | enum d =>
    obtain rfl := Option.some.inj h
    exact .enum d _
  | record kind d =>
    obtain ⟨fields, -, h⟩ := Option.bind_eq_some_iff.1 h
    obtain rfl := Option.some.inj h
    cases kind with
    | struct => exact .struct d _
    | exception => exact .exception d _
  | service d =>
    obtain ⟨methods, -, h⟩ := Option.bind_eq_some_iff.1 h
    obtain rfl := Option.some.inj h
    exact .service d _
  | constant d =>
    obtain ⟨value, -, h⟩ := Option.bind_eq_some_iff.1 h
    obtain rfl := Option.some.inj h
    exact .constant d _

/-- After a run that succeeds, Lisp reads each stream to its end: the forms at its beginning, and then
one list for each declaration that goes there, in source order, which begins with the head that defines
such declarations and the declared name. No documentation and no string constant gets in the way. -/
theorem streams_read_back {p : Program} {s : Sink} (hrun : run p = .ok () s)
    (hplain : p.PlainNames) (stream : Stream) :
    ∃ forms, readStream s stream = some (preambleTrees p stream ++ forms) ∧
      List.Forall₂ (Declares p.info) (p.definitions.filter (Definition.isOn stream)) forms := by
  have hon : ∀ d ∈ p.definitions.filter (Definition.isOn stream), d ∈ p.definitions ∧
      d.stream? = some stream := by
    intro d hd
    obtain ⟨hmem, hstream⟩ := List.mem_filter.1 hd
    exact ⟨hmem, by simpa [Definition.isOn] using hstream⟩
  obtain ⟨trees, htrees, hholds⟩ := holds_declarations
    (fun d hd => hplain.2.2 d (hon d hd).1) (fun d hd => (hon d hd).2)
    (fun d hd => forms_of_run hrun d (hon d hd).1)
  refine ⟨trees, readStream_of_holds ?_, htrees.imp fun d t ht => declares_of_tree ht⟩
  rw [contents_of_run hrun]
  exact (holds_preamble hplain stream).append hholds

/-- Documentation that would close its string and the form early, and open a comment, does not. -/
theorem streams_read_back_notes :
    let text : Ty := .base .string
    let note : Record := ⟨"Note", none, [⟨1, "body", text, none, some "ends here\")) ; or not"⟩],
      some "a backslash \\ and a quote \"\n(left open"⟩
    let p : Program := ⟨{ name := "notes" }, [{ name := "shared" }],
      [Definition.typedef ⟨ "Text", none, text, none⟩, .record .struct note,
        .constant ⟨"opening", text, .string "\")\n;(", none⟩]⟩
    ∃ s, run p = .ok () s ∧
      (∃ forms, readStream s .types = some (preambleTrees p .types ++ forms) ∧
        List.Forall₂ (Declares p.info) [.record .struct note] forms) ∧
      ∃ forms, readStream s .vars = some (preambleTrees p .vars ++ forms) ∧
        List.Forall₂ (Declares p.info) [.constant ⟨"opening", text, .string "\")\n;(", none⟩]
          forms := by
  intro text note p
  have hforms : ∀ d ∈ p.definitions, ∃ f, form p.info d = .ok f := by
    refine List.forall_mem_cons.2 ⟨⟨_, rfl⟩, List.forall_mem_cons.2 ⟨⟨_, rfl⟩, ?_⟩⟩
    exact List.forall_mem_cons.2 ⟨⟨_, rfl⟩, fun d hd => absurd hd List.not_mem_nil⟩
  have hpackage : ∀ name : String, ({ name } : ProgramInfo).PlainPackage :=
    fun name package hget => nomatch hget
  have hnote : (Ty.record .struct note).PlainNames := by
    refine ⟨fun kind d hd => ?_, fun d hd => ?_⟩
    · cases hd with
      | self =>
        refine ⟨by decide, ?_, by decide⟩
        intro info hinfo
        cases hinfo
      | field hf hmentions =>
        obtain rfl := List.mem_singleton.1 hf
        cases hmentions
    · cases hd with
      | field hf hmentions =>
        obtain rfl := List.mem_singleton.1 hf
        cases hmentions
  have hplain : p.PlainNames := by
    refine ⟨hpackage "notes", ?_, ?_⟩
    · intro info hinfo
      obtain rfl := List.mem_singleton.1 hinfo
      exact hpackage "shared"
    · refine List.forall_mem_cons.2 ⟨trivial, List.forall_mem_cons.2 ⟨hnote, ?_⟩⟩
      refine List.forall_mem_cons.2 ⟨⟨by decide, fun kind d hd => by cases hd⟩, ?_⟩
      exact fun d hd => absurd hd List.not_mem_nil
  obtain ⟨s, hrun, -⟩ := run_of_forms p hforms
  exact ⟨s, hrun, streams_read_back hrun hplain .types, streams_read_back hrun hplain .vars⟩

end Lisp

end IdlGen
