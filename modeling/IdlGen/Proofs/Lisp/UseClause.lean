import IdlGen.Proofs.Lisp.Owners
import IdlGen.Proofs.Lisp.Packages
import IdlGen.Proofs.Lisp.References

/-!
# The use clause covers what is used

A name with a package in front can only be read where that package is used. In a program whose
references lead to itself and to the programs that it includes, every package that stands in front of a
name on a stream is named in the use clause. Two ways through a program have to agree for that: the list
of included programs, and the references at any depth of a type or literal.
-/

namespace IdlGen

open Lisp

/-- The declarations refer only to the program itself and to programs that it includes. -/
def Program.KnowsOwners (p : Program) : Prop :=
  ∀ d ∈ p.definitions, ∀ r, Refers d r → ∀ info, r.owner = some info →
    info = p.info ∨ info ∈ p.includes

namespace Lisp

/-- What the form of a declaration is in every program, with the names it refers to left open. Drafts may
differ in how they cut texts into pieces, but not in the owners that they mention
(`IsDraftOf.mentions_owner_iff`). -/
structure IsDraftOf (d : Definition) (draft : Draft) : Prop where
  form (current : ProgramInfo) : form current d = .ok (draft.fill current)
  refers {r : Reference} : draft.Mentions r → Refers d r

theorem exists_draft {d : Definition} {info : ProgramInfo} (h : ∃ f, form info d = .ok f) :
    ∃ draft, IsDraftOf d draft := by
  cases open_form d with
  | ok hform hopen =>
    obtain ⟨draft, rfl, hrefs⟩ := hopen
    exact ⟨draft, hform, fun hr => hrefs _ hr⟩
  | error e hform =>
    obtain ⟨f, hf⟩ := h
    rw [hform] at hf
    cases hf

/-- All drafts of a declaration have equally many references to each program. -/
theorem IsDraftOf.ownedBy_eq {d : Definition} {draft draft' : Draft} (h : IsDraftOf d draft)
    (h' : IsDraftOf d draft') (info : ProgramInfo) : draft.ownedBy info = draft'.ownedBy info :=
  ownedBy_eq_of_fill_eq (fun current => Except.ok.inj ((h.form current).symm.trans (h'.form current))) info

/-- So the owners that a draft mentions, by name and by package, are those of any other one. -/
theorem IsDraftOf.mentions_owner_iff {d : Definition} {draft draft' : Draft} (h : IsDraftOf d draft)
    (h' : IsDraftOf d draft') (info : ProgramInfo) :
    (∃ r, draft.Mentions r ∧ r.IsOf info) ↔ ∃ r, draft'.Mentions r ∧ r.IsOf info := by
  rw [← Draft.ownedBy_pos_iff, ← Draft.ownedBy_pos_iff, h.ownedBy_eq h']

/-- Forms on a stream are drafts, filled in. -/
theorem exists_drafts {info : ProgramInfo} {ds : List Definition}
    (hforms : ∀ d ∈ ds, ∃ f, form info d = .ok f) :
    ∃ drafts, List.Forall₂ IsDraftOf ds drafts ∧
      ds.flatMap (formBytes info) = (drafts.map (Draft.fill info)).flatMap Layout.bytes := by
  induction ds with
  | nil => exact ⟨[], .nil, rfl⟩
  | cons d ds ih =>
    obtain ⟨hd, hds⟩ := List.forall_mem_cons.1 hforms
    obtain ⟨draft, hdraft⟩ := exists_draft hd
    obtain ⟨drafts, hdrafts, hbytes⟩ := ih hds
    refine ⟨draft :: drafts, .cons hdraft hdrafts, ?_⟩
    rw [List.flatMap_cons, List.map_cons, List.flatMap_cons, hbytes, formBytes, hdraft.form info]

/-- A reference to an included program or to the program itself is written without a package or with
one that the program uses. -/
theorem written_of_known {p : Program} {r : Reference}
    (h : ∀ info, r.owner = some info → info = p.info ∨ info ∈ p.includes) :
    r.written p.info = r.name ∨ ∃ package ∈ usedPackages (packageOf p.info) p.includes,
      r.written p.info = package ++ ":" ++ r.name := by
  obtain ⟨name, owner⟩ := r
  cases owner with
  | none => exact .inl rfl
  | some info =>
    by_cases hpackage : packageOf info = packageOf p.info
    · left
      simp [Reference.written, qualify, hpackage]
    · rcases h info rfl with rfl | hinclude
      · exact absurd rfl hpackage
      · by_cases hname : info.name = p.info.name
        · exact .inl (if_pos hname)
        · refine .inr ⟨packageOf info, mem_usedPackages.2 ⟨hpackage, info, hinclude, rfl⟩, ?_⟩
          simp [Reference.written, qualify, hname, hpackage]

/-- The use clause names the packages of the included programs other than the program's own, each once
and in the order of their first occurrence, and is left out if there are none. However a run ends, its
streams hold the beginnings of the files and the drafts of declarations, filled in, and whatever package
stands in front of a name there is in the use clause. -/
theorem use_clause_covers_references (p : Program) :
    (packageForm p).render = "(thrift:def-package :" ++ packageOf p.info ++
      useClause (usedPackages (packageOf p.info) p.includes) ++ ")" ∧
    ForeignPackages (packageOf p.info) (p.includes.map packageOf)
      (usedPackages (packageOf p.info) p.includes) ∧
    (p.KnowsOwners → ∃ written, written <+: p.definitions ∧ ∀ stream, ∃ drafts,
      List.Forall₂ IsDraftOf (written.filter (Definition.isOn stream)) drafts ∧
      (finalState (run p)).contents stream = (preamble p.info p.includes stream ++
        drafts.map (Draft.fill p.info)).flatMap Layout.bytes ∧
      ∀ draft ∈ drafts, ∀ r, draft.Mentions r →
        r.written p.info = r.name ∨ ∃ package ∈ usedPackages (packageOf p.info) p.includes,
          r.written p.info = package ++ ":" ++ r.name) := by
  refine ⟨render_packageForm p, foreignPackages_usedPackages _ _, fun hknown => ?_⟩
  obtain ⟨written, hsource, hforms, hcontents⟩ := contents_of_end p
  refine ⟨written, hsource, fun stream => ?_⟩
  have hon : ∀ d ∈ written.filter (Definition.isOn stream), d ∈ written :=
    fun d hd => (List.mem_filter.1 hd).1
  obtain ⟨drafts, hdrafts, hbytes⟩ := exists_drafts fun d hd => hforms d (hon d hd)
  refine ⟨drafts, hdrafts, ?_, ?_⟩
  · rw [hcontents, hbytes, List.flatMap_append]
  · intro draft hdraft r hr
    obtain ⟨d, hd, hdraftOf⟩ := mem_of_forall₂ hdrafts hdraft
    exact written_of_known (hknown d (hsource.subset (hon d hd)) r (hdraftOf.refers hr))

/-- A program without namespace that includes one with a namespace, twice, and one without. A field and a
base service come from the included ones, and only the package of the first is used. -/
theorem use_clause_covers_references_drawing :
    let shared : ProgramInfo := ({ name := "shared" } : ProgramInfo).withNamespace "cl" "common"
    let base : ProgramInfo := { name := "base" }
    let point : Record := { name := "Point", owner := some shared }
    let line : Record := { name := "Line", owner := some { name := "drawing" }, fields :=
      [⟨1, "ends", .list (.record .struct point), none, none⟩] }
    let root : Service := { name := "Root", owner := some base }
    let p : Program := ⟨{ name := "drawing" }, [base, shared, shared],
      [.record .struct line, .service { name := "Canvas", base := some root }]⟩
    usedPackages (packageOf p.info) p.includes = ["common"] ∧ p.KnowsOwners ∧
      ∃ written, written <+: p.definitions ∧ ∀ stream, ∃ drafts,
        List.Forall₂ IsDraftOf (written.filter (Definition.isOn stream)) drafts ∧
        (finalState (run p)).contents stream = (preamble p.info p.includes stream ++
          drafts.map (Draft.fill p.info)).flatMap Layout.bytes ∧
        ∀ draft ∈ drafts, ∀ r, draft.Mentions r →
          r.written p.info = r.name ∨ r.written p.info = "common" ++ ":" ++ r.name := by
  intro shared base point line root p
  have hused : usedPackages (packageOf p.info) p.includes = ["common"] := by decide +kernel
  have hline : ∀ r, Refers (.record .struct line) r →
      r.owner = some p.info ∨ r.owner = some shared := by
    intro r hr
    cases hr with
    | declared => exact .inl rfl
    | shown hshows hmentions =>
      cases hshows with
      | field hf =>
        obtain rfl := List.mem_singleton.1 hf
        cases hmentions with
        | list helement =>
          cases helement with
          | self => exact .inr rfl
          | field hfield => cases hfield
  have hcanvas : ∀ r, Refers (.service { name := "Canvas", base := some root }) r →
      r.owner = some base := by
    intro r hr
    cases hr with
    | shown hshows => cases hshows <;> contradiction
    | base hbase =>
      obtain rfl := Option.some.inj hbase
      rfl
  have hknown : p.KnowsOwners := by
    intro d hd r hr info hinfo
    rcases List.mem_cons.1 hd with rfl | hd
    · rcases hline r hr with howner | howner <;> obtain rfl := Option.some.inj (hinfo.symm.trans howner)
      · exact .inl rfl
      · exact .inr (by simp [p])
    · obtain rfl := List.mem_singleton.1 hd
      obtain rfl := Option.some.inj (hinfo.symm.trans (hcanvas r hr))
      exact .inr (by simp [p])
  obtain ⟨-, -, hcovers⟩ := use_clause_covers_references p
  obtain ⟨written, hsource, hstreams⟩ := hcovers hknown
  refine ⟨hused, hknown, written, hsource, fun stream => ?_⟩
  obtain ⟨drafts, hdrafts, hcontents, hmentions⟩ := hstreams stream
  refine ⟨drafts, hdrafts, hcontents, fun draft hdraft r hr => ?_⟩
  simpa only [hused, List.mem_singleton, exists_eq_left] using hmentions draft hdraft r hr

end Lisp

end IdlGen
