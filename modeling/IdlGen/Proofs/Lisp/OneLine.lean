import IdlGen.Lisp.Backend
import IdlGen.Proofs.Lisp.Names
import IdlGen.Proofs.Lisp.TextReading

/-!
# Names and strings on one line

A string is on one line if it has no line break. Lower case makes no line breaks, so the name of a record
stays on one line, also behind its package, and numbers never leave theirs.
-/

namespace IdlGen

/-- A string without line breaks. -/
def OneLine (s : String) : Prop := '\n' ∉ s.toList

instance (s : String) : Decidable (OneLine s) := inferInstanceAs (Decidable (¬ _))

/-- The package that a program declares is on one line, if it declares one. -/
def ProgramInfo.OneLinePackage (info : ProgramInfo) : Prop :=
  ∀ package, info.namespaces.get? Lisp.language = some package → OneLine package

/-- The name of a record and the package of the declaring program are on one line each. -/
def RecordOf.OneLineName {τ : Type} (d : RecordOf τ) : Prop :=
  OneLine d.name ∧ ∀ info, d.owner = some info → info.OneLinePackage

/-- All records in a type have names on one line. -/
def Ty.OneLineRecords (t : Ty) : Prop := ∀ kind d, t.Mentions (.record kind d) → d.OneLineName

theorem Ty.OneLineRecords.of_mentions {t u : Ty} (h : t.OneLineRecords)
    (hmentions : ∀ {v : Ty}, u.Mentions v → t.Mentions v) : u.OneLineRecords :=
  fun kind d hd => h kind d (hmentions hd)

theorem Ty.OneLineRecords.trueType {t : Ty} (h : t.OneLineRecords) : t.trueType.OneLineRecords :=
  h.of_mentions Ty.mentions_of_trueType

/-- All strings in a literal are on one line. -/
inductive Literal.OneLineStrings : Literal → Prop where
  | integer (n : Int64) : OneLineStrings (.integer n)
  | double (x : Binary64) : OneLineStrings (.double x)
  | string {s : String} (h : OneLine s) : OneLineStrings (.string s)
  | list {items : List Literal} (h : ∀ item ∈ items, OneLineStrings item) :
      OneLineStrings (.list items)
  | map {entries : List (Literal × Literal)} (hkeys : ∀ entry ∈ entries, OneLineStrings entry.1)
      (hvalues : ∀ entry ∈ entries, OneLineStrings entry.2) : OneLineStrings (.map entries)

/-- The names and strings of a constant are on one line each. -/
structure Constant.OneLineTexts (c : Constant) : Prop where
  name : OneLine c.name
  records : c.type.OneLineRecords
  strings : c.value.OneLineStrings

theorem OneLine.append {s t : String} (hs : OneLine s) (ht : OneLine t) : OneLine (s ++ t) := by
  rw [OneLine, String.toList_append, List.mem_append]
  exact not_or.2 ⟨hs, ht⟩

/-! ### Lower case -/

namespace Text

theorem ofNat_ne_newline {n : Nat} (hn : n ≠ 10) : Char.ofNat n ≠ '\n' := by
  intro hbreak
  by_cases hvalid : n.isValidChar
  · rw [Char.ofNat, dif_pos hvalid] at hbreak
    exact hn (congrArg Char.toNat hbreak)
  · rw [Char.ofNat, dif_neg hvalid] at hbreak
    exact absurd hbreak (by decide)

theorem lowerLetter_ne_newline {c : Char} (hc : c ≠ '\n') : lowerLetter c ≠ '\n' := by
  unfold lowerLetter
  split
  · rename_i hascii
    apply ascii_forall (P := fun c => c ≠ '\n' → c.toLower ≠ '\n') _ hascii hc
    decide
  · dsimp only
    split
    · rename_i first last step distance hfound
      -- The table leads nowhere near the line break, whose number is ten.
      have hranges : ∀ range ∈ CaseTable.lowerRanges, 10 < (range.1 : Int) + range.2.2.2 := by
        decide +kernel
      have hfar := hranges _ (List.mem_of_find?_eq_some hfound)
      have hwithin : first ≤ c.toNat := by
        have hbounds := List.find?_some hfound
        simp only [Bool.and_eq_true, decide_eq_true_eq] at hbounds
        exact hbounds.1.1
      dsimp only at hfar
      exact ofNat_ne_newline (by omega)
    · exact hc

theorem newline_notMem_lowerBetween {c : Char} (hc : c ≠ '\n') (before after : List Char) :
    '\n' ∉ lowerBetween before c after := by
  unfold lowerBetween
  split
  · split <;> decide
  · split
    · decide
    · simpa using (lowerLetter_ne_newline hc).symm

theorem newline_notMem_lowerFrom {cs : List Char} (hcs : '\n' ∉ cs) (before : List Char) :
    '\n' ∉ lowerFrom before cs := by
  induction cs generalizing before with
  | nil => exact List.not_mem_nil
  | cons c cs ih =>
    obtain ⟨hc, hcs⟩ := not_or.1 (mt List.mem_cons.2 hcs)
    rw [lowerFrom, List.mem_append]
    exact not_or.2 ⟨newline_notMem_lowerBetween (Ne.symm hc) before cs, ih hcs _⟩

end Text

theorem OneLine.lowercase {s : String} (h : OneLine s) : OneLine (Text.lowercase s) := by
  rw [OneLine, Text.lowercase, String.toList_ofList]
  exact Text.newline_notMem_lowerFrom h []

/-! ### What is written on one line -/

namespace Lisp

open Reader

theorem oneLine_packageOf {info : ProgramInfo} (h : info.OneLinePackage) :
    OneLine (packageOf info) := by
  unfold packageOf ProgramInfo.namespaceFor
  cases hget : info.namespaces.get? language with
  | none => decide
  | some package =>
    rw [Option.filter_some]
    split
    · exact h package hget
    · decide

theorem oneLine_recordName {d : Record} (h : d.OneLineName) (current : ProgramInfo) :
    OneLine (recordName d current) := by
  obtain ⟨hname, howner⟩ := h
  unfold recordName qualify
  split
  · exact hname.lowercase
  · rename_i info hinfo
    split
    · exact hname.lowercase
    · split
      · exact hname.lowercase
      · exact ((oneLine_packageOf (howner info hinfo)).append (by decide)).append hname.lowercase

theorem oneLine_symbol {name : String} (h : OneLine name) : OneLine (symbol name) :=
  (OneLine.append (by decide) h).append (by decide)

theorem oneLine_quote {s : String} (h : OneLine s) : OneLine (quote s) := by
  have hinside : '\n' ∉ s.toList.flatMap (fun c => if c = '"' ∨ c = '\\' then ['\\', c] else [c]) := by
    rw [List.mem_flatMap]
    rintro ⟨c, hc, hbreak⟩
    have hne : '\n' ≠ c := by
      rintro rfl
      exact h hc
    split at hbreak <;> simp [hne] at hbreak
  rw [OneLine, quote, String.toList_ofList]
  simp only [List.cons_append, List.mem_cons, List.mem_append, not_or]
  exact ⟨by decide, hinside, by decide, List.not_mem_nil⟩

theorem oneLine_of_atomic {t : String} (h : Atomic t) : OneLine t :=
  fun hbreak => absurd (List.all_eq_true.1 h.2 _ hbreak) (by decide)

end Lisp

end IdlGen
