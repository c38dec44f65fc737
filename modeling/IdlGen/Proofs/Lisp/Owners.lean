import IdlGen.Proofs.Lisp.Drafts
import Mathlib.Data.Finset.Basic
import Mathlib.Data.Fintype.EquivFin

/-!
# Owners in a draft

What the programs make of a draft tells which owners its references have, as far as qualifying tells
programs apart: by name and by package. To see how often a program is an owner, four programs are compared:
the one in question; a far one, whose name and package no owner has; and the two that have the name of one
and the package of the other. The first two write the same number of packages in front of a reference as the
crossed ones, but for references to the program in question, of which the far one alone writes the package.

So all drafts of one thing mention the same owners, and none can hide an owner in a text.
-/

namespace IdlGen.Lisp

/-- The reference is to this program, by name and by package. -/
def Reference.IsOf (info : ProgramInfo) (r : Reference) : Prop :=
  ∃ owner ∈ r.owner, owner.name = info.name ∧ packageOf owner = packageOf info

instance (info : ProgramInfo) : DecidablePred (Reference.IsOf info) := fun r =>
  inferInstanceAs (Decidable (∃ owner ∈ r.owner, _))

def Piece.IsOf (info : ProgramInfo) : Piece → Prop
  | fixed _ => False
  | reference r => r.IsOf info

instance (info : ProgramInfo) : DecidablePred (Piece.IsOf info)
  | .fixed _ => inferInstanceAs (Decidable False)
  | .reference r => inferInstanceAs (Decidable (r.IsOf info))

def Piece.owner? : Piece → Option ProgramInfo
  | fixed _ => none
  | reference r => r.owner

/-- The program has neither the name nor the package of the piece's owner. -/
def Piece.IsFarFrom (far : ProgramInfo) (piece : Piece) : Prop :=
  ∀ owner ∈ piece.owner?, owner.name ≠ far.name ∧ packageOf owner ≠ packageOf far

/-! ### Lengths -/

/-- The program with the name of one and the package of the other. -/
def crossed (named packaged : ProgramInfo) : ProgramInfo := { packaged with name := named.name }

@[simp] theorem packageOf_crossed (named packaged : ProgramInfo) :
    packageOf (crossed named packaged) = packageOf packaged := rfl

@[simp] theorem name_crossed (named packaged : ProgramInfo) : (crossed named packaged).name = named.name := rfl

theorem length_qualify (name : String) (owner current : ProgramInfo) :
    (qualify name (some owner) current).length = name.length +
      if owner.name = current.name ∨ packageOf owner = packageOf current then 0
      else (packageOf owner).length + 1 := by
  by_cases hname : owner.name = current.name
  · simp [qualify, hname]
  · by_cases hpackage : packageOf owner = packageOf current
    · simp [qualify, hname, hpackage]
    · simp only [qualify, hname, hpackage, if_false, or_self, String.length_append]
      exact Nat.add_comm _ _

variable {far : ProgramInfo}

theorem Piece.length_written {piece : Piece} (hfar : piece.IsFarFrom far) (info : ProgramInfo) :
    (piece.written far).length + (piece.written info).length =
      (piece.written (crossed far info)).length + (piece.written (crossed info far)).length +
        if piece.IsOf info then (packageOf info).length + 1 else 0 := by
  cases piece with
  | fixed text => rfl
  | reference r =>
    obtain ⟨name, owner⟩ := r
    cases owner with
    | none =>
      have hnone : ¬(reference ⟨name, none⟩).IsOf info := nofun
      rw [if_neg hnone]
      rfl
    | some owner =>
      obtain ⟨hname, hpackage⟩ := hfar owner rfl
      have hof : (reference ⟨name, some owner⟩).IsOf info ↔
          owner.name = info.name ∧ packageOf owner = packageOf info := by
        simp [IsOf, Reference.IsOf]
      simp only [written, Reference.written, length_qualify, name_crossed, packageOf_crossed, hname,
        hpackage, false_or, or_false, if_false, hof]
      by_cases hsameName : owner.name = info.name
      · by_cases hsamePackage : packageOf owner = packageOf info
        · simp only [hsameName, hsamePackage, or_self, and_self, if_true]
          omega
        · simp only [hsameName, hsamePackage, true_or, and_false, if_true, if_false]
          omega
      · by_cases hsamePackage : packageOf owner = packageOf info
        · simp only [hsameName, hsamePackage, or_true, false_and, if_true, if_false]
          omega
        · simp only [hsameName, hsamePackage, or_self, and_self, if_false]
          omega

theorem length_spell {pieces : List Piece} (hfar : ∀ piece ∈ pieces, piece.IsFarFrom far)
    (info : ProgramInfo) :
    (spell far pieces).length + (spell info pieces).length =
      (spell (crossed far info) pieces).length + (spell (crossed info far) pieces).length +
        (pieces.countP fun piece => piece.IsOf info) * ((packageOf info).length + 1) := by
  induction pieces with
  | nil => simp [spell]
  | cons piece pieces ih =>
    obtain ⟨hpiece, hpieces⟩ := List.forall_mem_cons.1 hfar
    -- Each piece of the program adds one package to the far side, and no other piece adds anything.
    have hfirst := piece.length_written hpiece info
    have hrest := ih hpieces
    simp only [spell, String.length_append, List.countP_cons, decide_eq_true_eq, Nat.add_mul]
    split at hfirst
    · rename_i hof
      rw [if_pos hof, Nat.one_mul]
      omega
    · rename_i hof
      rw [if_neg hof, Nat.zero_mul]
      omega

/-! ### Far programs -/

theorem packageOf_withNamespace (info : ProgramInfo) {package : String} (h : package ≠ "") :
    packageOf (info.withNamespace language package) = package := by
  simp [packageOf, ProgramInfo.namespaceFor, ProgramInfo.withNamespace, Option.filter_some, h]

theorem exists_far (pieces : List Piece) : ∃ far, ∀ piece ∈ pieces, piece.IsFarFrom far := by
  let owners := pieces.filterMap Piece.owner?
  obtain ⟨name, hname⟩ := Infinite.exists_notMem_finset (owners.map ProgramInfo.name).toFinset
  obtain ⟨package, hpackage⟩ := Infinite.exists_notMem_finset ("" :: owners.map packageOf).toFinset
  rw [List.mem_toFinset] at hname hpackage
  rw [List.mem_cons, not_or] at hpackage
  refine ⟨({ name } : ProgramInfo).withNamespace language package, fun piece hpiece owner howner => ?_⟩
  have hmem : owner ∈ owners := List.mem_filterMap.2 ⟨piece, hpiece, howner⟩
  rw [packageOf_withNamespace _ hpackage.1]
  refine ⟨fun hsame => hname ?_, fun hsame => hpackage.2 ?_⟩
  · exact List.mem_map.2 ⟨owner, hmem, hsame⟩
  · exact List.mem_map.2 ⟨owner, hmem, hsame⟩

/-! ### Drafts -/

/-- The pieces of all texts of a draft. -/
def Draft.pieces : Draft → List Piece
  | empty => []
  | text pieces => pieces
  | line => []
  | append first second => first.pieces ++ second.pieces
  | nest _ part => part.pieces
  | align part => part.pieces

theorem Draft.mentions_iff {r : Reference} {draft : Draft} :
    draft.Mentions r ↔ .reference r ∈ draft.pieces := by
  induction draft with
  | empty => simp [Mentions, pieces]
  | line => simp [Mentions, pieces]
  | text pieces => exact Iff.rfl
  | append first second ihFirst ihSecond => rw [Mentions, pieces, List.mem_append, ihFirst, ihSecond]
  | nest width part ih => exact ih
  | align part ih => exact ih

/-- All texts of a layout, one behind the other. -/
def texts : Layout → String
  | .empty => ""
  | .text s => s
  | .line => ""
  | .append first second => texts first ++ texts second
  | .nest _ part => texts part
  | .align part => texts part

theorem texts_fill (current : ProgramInfo) (draft : Draft) :
    texts (draft.fill current) = spell current draft.pieces := by
  induction draft with
  | empty => rfl
  | text pieces => rfl
  | line => rfl
  | append first second ihFirst ihSecond =>
    rw [Draft.fill, texts, ihFirst, ihSecond, Draft.pieces, spell_append]
  | nest width part ih => exact ih
  | align part ih => exact ih

/-- How many references of a draft are to this program, by name and by package. -/
def Draft.ownedBy (info : ProgramInfo) (draft : Draft) : Nat :=
  draft.pieces.countP fun piece => piece.IsOf info

theorem Draft.ownedBy_pos_iff {info : ProgramInfo} {draft : Draft} :
    0 < draft.ownedBy info ↔ ∃ r, draft.Mentions r ∧ r.IsOf info := by
  simp only [ownedBy, List.countP_pos_iff, decide_eq_true_eq, mentions_iff]
  constructor
  · rintro ⟨piece, hpiece, hof⟩
    cases piece with
    | fixed text => exact absurd hof id
    | reference r => exact ⟨r, hpiece, hof⟩
  · rintro ⟨r, hr, hof⟩
    exact ⟨.reference r, hr, hof⟩

/-- Drafts that all programs fill in alike have equally many references to each program. -/
theorem ownedBy_eq_of_fill_eq {draft draft' : Draft} (h : ∀ current, draft.fill current = draft'.fill current)
    (info : ProgramInfo) : draft.ownedBy info = draft'.ownedBy info := by
  obtain ⟨far, hfar⟩ := exists_far (draft.pieces ++ draft'.pieces)
  obtain ⟨hfarFirst, hfarSecond⟩ := List.forall_mem_append.1 hfar
  have hspell : ∀ current, spell current draft.pieces = spell current draft'.pieces := by
    intro current
    rw [← texts_fill, ← texts_fill, h]
  -- The four programs spell both drafts with the same lengths, so what is left over is the same.
  have hfirst := length_spell hfarFirst info
  have hsecond := length_spell hfarSecond info
  simp only [hspell] at hfirst
  have hproduct := Nat.add_left_cancel (hfirst.symm.trans hsecond)
  exact Nat.eq_of_mul_eq_mul_right (Nat.succ_pos _) hproduct

end IdlGen.Lisp
