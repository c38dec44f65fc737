import IdlGen.Lisp.Backend
import Mathlib.Data.List.Induction
import Mathlib.Data.List.Nodup

/-!
# Used packages

The form that declares a package also names the packages that it uses: those of the included programs
other than its own, each once, in the order in which they first come up.
-/

namespace IdlGen.Lisp

/-- The packages in a list other than the own one, each once, in the order of their first occurrence. -/
structure ForeignPackages (own : String) (packages used : List String) : Prop where
  nodup : used.Nodup
  mem_iff (package : String) : package ∈ used ↔ package ≠ own ∧ package ∈ packages
  in_order : used.Pairwise fun a b => packages.idxOf a < packages.idxOf b

namespace ForeignPackages

variable {own package : String} {packages used : List String}

theorem nil (own : String) : ForeignPackages own [] [] where
  nodup := .nil
  mem_iff package := by simp
  in_order := .nil

/-- One more package behind all others changes no order among them. -/
theorem in_order_snoc (h : ForeignPackages own packages used) (package : String) :
    used.Pairwise fun a b => (packages ++ [package]).idxOf a < (packages ++ [package]).idxOf b := by
  refine h.in_order.imp_of_mem fun {a b} ha hb hlt => ?_
  rwa [List.idxOf_append_of_mem ((h.mem_iff a).1 ha).2, List.idxOf_append_of_mem ((h.mem_iff b).1 hb).2]

theorem keep (h : ForeignPackages own packages used) (hold : package = own ∨ package ∈ used) :
    ForeignPackages own (packages ++ [package]) used where
  nodup := h.nodup
  mem_iff other := by
    rw [h.mem_iff, List.mem_append, List.mem_singleton]
    constructor
    · rintro ⟨hne, hmem⟩
      exact ⟨hne, .inl hmem⟩
    · rintro ⟨hne, hmem | rfl⟩
      · exact ⟨hne, hmem⟩
      · exact (h.mem_iff other).1 (hold.resolve_left hne)
  in_order := h.in_order_snoc package

theorem add (h : ForeignPackages own packages used) (hforeign : package ≠ own)
    (hnew : package ∉ used) : ForeignPackages own (packages ++ [package]) (used ++ [package]) where
  nodup := List.nodup_append.2 ⟨h.nodup, List.nodup_singleton _, by
    rintro a ha b hb rfl
    exact hnew (List.mem_singleton.1 hb ▸ ha)⟩
  mem_iff other := by
    rw [List.mem_append, List.mem_append, List.mem_singleton, h.mem_iff]
    constructor
    · rintro (⟨hne, hmem⟩ | rfl)
      · exact ⟨hne, .inl hmem⟩
      · exact ⟨hforeign, .inr rfl⟩
    · rintro ⟨hne, hmem | rfl⟩
      · exact .inl ⟨hne, hmem⟩
      · exact .inr rfl
  in_order := by
    have hfirst : package ∉ packages := fun hmem => hnew ((h.mem_iff package).2 ⟨hforeign, hmem⟩)
    refine List.pairwise_append.2 ⟨h.in_order_snoc package, List.pairwise_singleton _ _, ?_⟩
    intro a ha b hb
    obtain rfl := List.mem_singleton.1 hb
    have hmem := ((h.mem_iff a).1 ha).2
    rw [List.idxOf_append_of_mem hmem, List.idxOf_append_of_notMem hfirst]
    exact Nat.lt_add_right _ (List.idxOf_lt_length_iff.2 hmem)

end ForeignPackages

/-- Including one more program adds its package, unless it is the own one or has come up before. -/
theorem usedPackages_snoc (own : String) (includes : List ProgramInfo) (info : ProgramInfo) :
    usedPackages own (includes ++ [info]) =
      if packageOf info ≠ own ∧ packageOf info ∉ usedPackages own includes then
        usedPackages own includes ++ [packageOf info]
      else usedPackages own includes := by
  rw [usedPackages, List.foldl_append]
  rfl

theorem foreignPackages_usedPackages (own : String) (includes : List ProgramInfo) :
    ForeignPackages own (includes.map packageOf) (usedPackages own includes) := by
  induction includes using List.reverseRecOn with
  | nil => exact .nil own
  | append_singleton includes info ih =>
    rw [List.map_append, List.map_singleton, usedPackages_snoc]
    split
    · rename_i hnew
      exact ih.add hnew.1 hnew.2
    · rename_i hold
      refine ih.keep ?_
      by_contra hcontra
      exact hold (not_or.1 hcontra)

theorem mem_usedPackages {own package : String} {includes : List ProgramInfo} :
    package ∈ usedPackages own includes ↔
      package ≠ own ∧ ∃ info ∈ includes, packageOf info = package := by
  rw [(foreignPackages_usedPackages own includes).mem_iff, List.mem_map]

/-- The clause of a package form that names the used packages, if there are any. -/
def useClause (used : List String) : String :=
  if used.isEmpty then "" else " :use (" ++ " ".intercalate (used.map fun package => ":" ++ package) ++ ")"

theorem render_text (t : String) : (Layout.text t).render = t := by
  rw [Layout.render, Layout.print, Layout.printText]
  split
  · rename_i hempty
    rw [String.toList_eq_nil_iff.1 (List.isEmpty_iff.1 hempty)]
  · exact String.ofList_toList

theorem render_packageForm (p : Program) :
    (packageForm p).render = "(thrift:def-package :" ++ packageOf p.info ++
      useClause (usedPackages (packageOf p.info) p.includes) ++ ")" := by
  unfold packageForm useClause
  dsimp only
  split
  · rw [render_text, String.append_empty]
  · have hclose : "))" = ")" ++ ")" := rfl
    rw [render_text, hclose]
    simp only [String.append_assoc]

end IdlGen.Lisp
