import IdlGen.Lisp.Name

/-!
# Which names are told apart

A name from another program is written with the package of that program in front, unless both programs
have one package. Names without colons can then be taken apart again at the last colon, so two written
names are the same only if the declared names and the packages are.

The package is that of the declaring program, with one exception: a program that has the name of the
current one passes for it, whatever package it declares.
-/

namespace IdlGen.Lisp

/-- The package of a declaration: that of its program, or of the current one if it is local. -/
def declaringPackage (owner : Option ProgramInfo) (current : ProgramInfo) : String :=
  (owner.map packageOf).getD (packageOf current)

/-- The package in which the current program looks for a declaration. It takes every program of its
own name for itself. -/
def assumedPackage (owner : Option ProgramInfo) (current : ProgramInfo) : String :=
  match owner with
  | none => packageOf current
  | some info => if info.name = current.name then packageOf current else packageOf info

/-- The declaring program has the name of the current one and another package. -/
def Namesake (owner : Option ProgramInfo) (current : ProgramInfo) : Prop :=
  ∃ info, owner = some info ∧ info.name = current.name ∧ packageOf info ≠ packageOf current

theorem assumedPackage_eq_declaringPackage_iff (owner : Option ProgramInfo) (current : ProgramInfo) :
    assumedPackage owner current = declaringPackage owner current ↔ ¬ Namesake owner current := by
  cases owner with
  | none => simp [assumedPackage, declaringPackage, Namesake]
  | some info =>
    by_cases hname : info.name = current.name
    · simp [assumedPackage, declaringPackage, Namesake, hname, eq_comm]
    · simp [assumedPackage, declaringPackage, Namesake, hname]

theorem qualify_eq (name : String) (owner : Option ProgramInfo) (current : ProgramInfo) :
    qualify name owner current =
      if assumedPackage owner current = packageOf current then name
      else assumedPackage owner current ++ ":" ++ name := by
  cases owner with
  | none => simp [qualify, assumedPackage]
  | some info =>
    by_cases hname : info.name = current.name
    · simp [qualify, assumedPackage, hname]
    · simp [qualify, assumedPackage, hname]

/-! ### Colons -/

theorem append_colon_inj {p q a b : List Char} (ha : ':' ∉ a) (hb : ':' ∉ b)
    (h : p ++ ':' :: a = q ++ ':' :: b) : p = q ∧ a = b := by
  rcases List.append_eq_append_iff.1 h with ⟨more, hq, htail⟩ | ⟨more, hp, htail⟩
  · cases more with
    | nil => exact ⟨by simpa using hq.symm, by simpa using htail⟩
    | cons c more =>
      -- A longer first part would reach past the colon that `a` stands behind.
      obtain ⟨-, rfl⟩ := List.cons.inj htail
      exact absurd (List.mem_append_right more List.mem_cons_self) ha
  · cases more with
    | nil => exact ⟨by simpa using hp, by simpa using htail.symm⟩
    | cons c more =>
      obtain ⟨-, rfl⟩ := List.cons.inj htail
      exact absurd (List.mem_append_right more List.mem_cons_self) hb

theorem toList_prefixed (package name : String) :
    (package ++ ":" ++ name).toList = package.toList ++ ':' :: name.toList := by
  simp [String.toList_append]

theorem prefixed_inj {p q a b : String} (ha : ':' ∉ a.toList) (hb : ':' ∉ b.toList)
    (h : p ++ ":" ++ a = q ++ ":" ++ b) : p = q ∧ a = b := by
  have hchars := congrArg String.toList h
  rw [toList_prefixed, toList_prefixed] at hchars
  obtain ⟨hpackage, hname⟩ := append_colon_inj ha hb hchars
  exact ⟨String.toList_inj.1 hpackage, String.toList_inj.1 hname⟩

theorem ne_prefixed {name : String} (hname : ':' ∉ name.toList) (package other : String) :
    name ≠ package ++ ":" ++ other := by
  rintro rfl
  rw [toList_prefixed] at hname
  exact hname (List.mem_append_right _ List.mem_cons_self)

/-! ### Written names -/

theorem prefixed_ne (package name : String) : package ++ ":" ++ name ≠ name := by
  intro h
  have hlength := congrArg String.length h
  simp only [String.length_append] at hlength
  have hcolon : (":" : String).length = 1 := rfl
  omega

/-- A name stands without package exactly if it is looked for in the current one. -/
theorem qualify_eq_self_iff (name : String) (owner : Option ProgramInfo) (current : ProgramInfo) :
    qualify name owner current = name ↔ assumedPackage owner current = packageOf current := by
  rw [qualify_eq]
  split
  · rename_i hlocal
    exact ⟨fun _ => hlocal, fun _ => rfl⟩
  · rename_i hforeign
    exact ⟨fun h => absurd h (prefixed_ne _ _), fun h => absurd h hforeign⟩

theorem qualify_eq_qualify_iff {a b : String} (ha : ':' ∉ a.toList) (hb : ':' ∉ b.toList)
    (owner owner' : Option ProgramInfo) (current : ProgramInfo) :
    qualify a owner current = qualify b owner' current ↔
      a = b ∧ assumedPackage owner current = assumedPackage owner' current := by
  constructor
  · intro h
    rw [qualify_eq, qualify_eq] at h
    by_cases hlocal : assumedPackage owner current = packageOf current
    · by_cases hlocal' : assumedPackage owner' current = packageOf current
      · rw [if_pos hlocal, if_pos hlocal'] at h
        exact ⟨h, hlocal.trans hlocal'.symm⟩
      · rw [if_pos hlocal, if_neg hlocal'] at h
        exact absurd h (ne_prefixed ha _ _)
    · by_cases hlocal' : assumedPackage owner' current = packageOf current
      · rw [if_neg hlocal, if_pos hlocal'] at h
        exact absurd h.symm (ne_prefixed hb _ _)
      · rw [if_neg hlocal, if_neg hlocal'] at h
        obtain ⟨hpackage, hname⟩ := prefixed_inj ha hb h
        exact ⟨hname, hpackage⟩
  · rintro ⟨rfl, hpackage⟩
    rw [qualify_eq, qualify_eq, hpackage]

/-- The written names of two records, or of two services, agree exactly if the declared names do and
both are looked for in one package; a name stands without package exactly if that is the current one.
It is the declaring program's package, except for a namesake of the current program. -/
theorem references_told_apart (current : ProgramInfo) :
    (∀ d d' : Record, ':' ∉ (Text.lowercase d.name).toList → ':' ∉ (Text.lowercase d'.name).toList →
      (recordName d current = recordName d' current ↔
        Text.lowercase d.name = Text.lowercase d'.name ∧
          assumedPackage d.owner current = assumedPackage d'.owner current)) ∧
    (∀ s s' : Service, ':' ∉ s.name.toList → ':' ∉ s'.name.toList →
      (serviceName s current = serviceName s' current ↔
        s.name = s'.name ∧ assumedPackage s.owner current = assumedPackage s'.owner current)) ∧
    (∀ d : Record, recordName d current = Text.lowercase d.name ↔
      assumedPackage d.owner current = packageOf current) ∧
    (∀ s : Service, serviceName s current = s.name ↔
      assumedPackage s.owner current = packageOf current) ∧
    ∀ owner, assumedPackage owner current = declaringPackage owner current ↔
      ¬ Namesake owner current := by
  refine ⟨?_, ?_, ?_, ?_, ?_⟩
  · intro d d' hd hd'
    exact qualify_eq_qualify_iff hd hd' _ _ _
  · intro s s' hs hs'
    exact qualify_eq_qualify_iff hs hs' _ _ _
  · intro d
    exact qualify_eq_self_iff _ _ _
  · intro s
    exact qualify_eq_self_iff _ _ _
  · intro owner
    exact assumedPackage_eq_declaringPackage_iff _ _

/-- A record of a namesake in another package is written like a local one of that name. -/
theorem namesake_taken_for_local :
    let current : ProgramInfo := ({ name := "main" } : ProgramInfo).withNamespace "cl" "main"
    let namesake : ProgramInfo := ({ name := "main" } : ProgramInfo).withNamespace "cl" "other"
    let foreign : Record := { name := "Point", owner := some namesake }
    let point : Record := { name := "Point" }
    ':' ∉ (Text.lowercase foreign.name).toList ∧ ':' ∉ (Text.lowercase point.name).toList ∧
      recordName foreign current = recordName point current ∧
      declaringPackage foreign.owner current ≠ declaringPackage point.owner current := by
  decide +kernel

end IdlGen.Lisp
