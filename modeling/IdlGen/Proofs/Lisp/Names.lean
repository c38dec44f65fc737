import IdlGen.Lisp.Name
import IdlGen.Proofs.Lisp.Reader

/-!
# Plain names

A name is plain if it has a character and all its characters are ASCII letters, digits, underscores,
dots and hyphens. Lower case keeps that, and a package in front only adds a colon, so the names that a
backend writes are atoms, and strings in which nothing has to be escaped.
-/

namespace IdlGen

open Lisp.Reader

/-- A name of name characters. -/
def Plain (name : String) : Prop := name ≠ "" ∧ name.toList.all isNameChar

instance (name : String) : Decidable (Plain name) := inferInstanceAs (Decidable (_ ∧ _))

/-- The package that a program declares is a plain name, if it declares one. -/
def ProgramInfo.PlainPackage (info : ProgramInfo) : Prop :=
  ∀ package, info.namespaces.get? Lisp.language = some package →
    package.toList.all isNameChar

/-- The package of the declaring program is a plain name, if it declares one. -/
def PlainOwner (owner : Option ProgramInfo) : Prop := ∀ info, owner = some info → info.PlainPackage

/-- The names that a record brings along are plain. -/
def RecordOf.PlainNames {τ : Type} (d : RecordOf τ) : Prop :=
  Plain d.name ∧ PlainOwner d.owner ∧ ∀ f ∈ d.fields, Plain f.name

/-! ### Types within types -/

/-- A type holds another one: as itself, in a container, behind a typedef or in a field. -/
inductive Ty.Mentions : Ty → Ty → Prop where
  | self (t : Ty) : Mentions t t
  | list {element t : Ty} : Mentions element t → Mentions (.list element) t
  | set {element t : Ty} : Mentions element t → Mentions (.set element) t
  | key {key value t : Ty} : Mentions key t → Mentions (.map key value) t
  | value {key value t : Ty} : Mentions value t → Mentions (.map key value) t
  | typedef {d : Typedef} {t : Ty} : Mentions d.target t → Mentions (.typedef d) t
  | field {kind : RecordKind} {d : Record} {f : Field} {t : Ty} :
      f ∈ d.fields → Mentions f.type t → Mentions (.record kind d) t

namespace Ty

/-- All records in a type have plain names. -/
def PlainRecords (t : Ty) : Prop := ∀ kind d, t.Mentions (.record kind d) → d.PlainNames

/-- All records and enums in a type have plain names. -/
def PlainNames (t : Ty) : Prop := t.PlainRecords ∧ ∀ d, t.Mentions (.enum d) → Plain d.name

theorem mentions_of_trueType {t u : Ty} (h : t.trueType.Mentions u) : t.Mentions u := by
  fun_induction trueType t with
  | case1 name owner target doc ih => exact .typedef (ih h)
  | case2 t hother => exact h

theorem PlainRecords.of_mentions {t u : Ty} (h : t.PlainRecords)
    (hmentions : ∀ {v : Ty}, u.Mentions v → t.Mentions v) : u.PlainRecords :=
  fun kind d hd => h kind d (hmentions hd)

theorem PlainRecords.trueType {t : Ty} (h : t.PlainRecords) : t.trueType.PlainRecords :=
  h.of_mentions mentions_of_trueType

theorem PlainNames.of_mentions {t u : Ty} (h : t.PlainNames)
    (hmentions : ∀ {v : Ty}, u.Mentions v → t.Mentions v) : u.PlainNames :=
  ⟨h.1.of_mentions hmentions, fun d hd => h.2 d (hmentions hd)⟩

end Ty

/-! ### Lower case -/

namespace Text

theorem isNameChar_ascii {c : Char} (hc : isNameChar c) : c.toNat < 0x80 := by
  have hcases : (((c.isUpper ∨ c.isLower) ∨ c.isDigit) ∨ c = '_') ∨ c = '.' ∨ c = '-' := by
    change (c.isUpper || c.isLower || c.isDigit || c == '_' || c == '.' || c == '-') = true at hc
    simpa only [Bool.or_eq_true, beq_iff_eq, or_assoc] using hc
  have hbelow : ∀ d : Char, d.toNat < 0x80 → c.val ≤ d.val → c.toNat < 0x80 := by
    intro d hd hle
    exact Nat.lt_of_le_of_lt (UInt32.le_iff_toNat_le.1 hle) hd
  rcases hcases with ((hletter | hdigit) | rfl) | rfl | rfl
  · rcases hletter with hupper | hlower
    · exact hbelow 'Z' (by decide) (of_decide_eq_true hupper).2
    · exact hbelow 'z' (by decide) (of_decide_eq_true (Bool.and_eq_true_iff.1 hlower).2)
  · exact hbelow '9' (by decide) (of_decide_eq_true (Bool.and_eq_true_iff.1 hdigit).2)
  · decide
  · decide
  · decide

/-- What holds of the ASCII characters, one by one. -/
theorem ascii_forall {P : Char → Prop} (h : ∀ n < 0x80, P (Char.ofNat n)) {c : Char}
    (hc : c.toNat < 0x80) : P c := by
  have hchar := h c.toNat hc
  rwa [Char.ofNat_toNat] at hchar

theorem isNameChar_toLower {c : Char} (hc : isNameChar c) : isNameChar c.toLower := by
  apply ascii_forall (P := fun c => isNameChar c → isNameChar c.toLower) _ (isNameChar_ascii hc) hc
  decide

theorem lowerBetween_ascii {c : Char} (hc : c.toNat < 0x80) (before after : List Char) :
    lowerBetween before c after = [c.toLower] := by
  have hsigma : c ≠ 'Σ' := by
    rintro rfl
    exact absurd hc (by decide)
  have hdotted : c ≠ 'İ' := by
    rintro rfl
    exact absurd hc (by decide)
  rw [lowerBetween, if_neg hsigma, if_neg hdotted, lowerLetter, if_pos hc]

theorem lowerFrom_ascii {cs : List Char} (hcs : ∀ c ∈ cs, c.toNat < 0x80) (before : List Char) :
    lowerFrom before cs = cs.map Char.toLower := by
  induction cs generalizing before with
  | nil => rfl
  | cons c cs ih =>
    rw [lowerFrom, lowerBetween_ascii (hcs c List.mem_cons_self),
      ih fun x hx => hcs x (List.mem_cons_of_mem _ hx)]
    rfl

end Text

theorem Plain.lowercase {name : String} (h : Plain name) : Plain (Text.lowercase name) := by
  obtain ⟨hne, hall⟩ := h
  have hchars : ∀ c ∈ name.toList, isNameChar c := List.all_eq_true.1 hall
  have hlower : (Text.lowercase name).toList = name.toList.map Char.toLower := by
    rw [Text.lowercase, String.toList_ofList,
      Text.lowerFrom_ascii fun c hc => Text.isNameChar_ascii (hchars c hc)]
  refine ⟨fun hempty => hne ?_, ?_⟩
  · rw [hempty] at hlower
    exact String.toList_eq_nil_iff.1 (List.map_eq_nil_iff.1 hlower.symm)
  · rw [hlower, List.all_eq_true]
    intro c hc
    obtain ⟨x, hx, rfl⟩ := List.mem_map.1 hc
    exact Text.isNameChar_toLower (hchars x hx)

/-! ### Packages -/

namespace Lisp

theorem plain_defaultPackage : Plain defaultPackage := by decide

theorem plain_packageOf {info : ProgramInfo} (h : info.PlainPackage) : Plain (packageOf info) := by
  unfold packageOf ProgramInfo.namespaceFor
  cases hget : info.namespaces.get? language with
  | none => exact plain_defaultPackage
  | some package =>
    rw [Option.filter_some]
    split
    · rename_i hne
      exact ⟨by simpa using hne, h package hget⟩
    · exact plain_defaultPackage

namespace Reader

/-- A text that is read as one atom. -/
def Atomic (t : String) : Prop := t ≠ "" ∧ t.toList.all isAtomChar

instance (t : String) : Decidable (Atomic t) := inferInstanceAs (Decidable (_ ∧ _))

theorem isAtomChar_of_isNameChar {c : Char} (hc : isNameChar c) : isAtomChar c := by
  simp [isAtomChar, hc]

theorem Atomic.of_plain {name : String} (h : Plain name) : Atomic name :=
  ⟨h.1, List.all_eq_true.2 fun c hc => isAtomChar_of_isNameChar (List.all_eq_true.1 h.2 c hc)⟩

theorem Atomic.append {a b : String} (ha : Atomic a) (hb : b.toList.all isAtomChar) :
    Atomic (a ++ b) := by
  refine ⟨fun hempty => ha.1 ?_, ?_⟩
  · exact (String.append_eq_empty_iff.1 hempty).1
  · rw [String.toList_append, List.all_append, ha.2, hb]
    rfl

/-- A keyword: a colon and a name. -/
theorem Atomic.keyword {name : String} (h : Plain name) : Atomic (":" ++ name) :=
  Atomic.append (by decide) (Atomic.of_plain h).2

end Reader

open Reader

theorem atomic_qualify {name : String} {owner : Option ProgramInfo} (hname : Plain name)
    (howner : PlainOwner owner) (current : ProgramInfo) : Atomic (qualify name owner current) := by
  unfold qualify
  split
  · exact Atomic.of_plain hname
  · rename_i info
    split
    · exact Atomic.of_plain hname
    · split
      · exact Atomic.of_plain hname
      · have hpackage := Atomic.of_plain (plain_packageOf (howner info rfl))
        exact (hpackage.append (by decide)).append (Atomic.of_plain hname).2

theorem atomic_recordName {d : Record} (h : d.PlainNames) (current : ProgramInfo) :
    Atomic (recordName d current) := atomic_qualify h.1.lowercase h.2.1 current

end Lisp

end IdlGen
