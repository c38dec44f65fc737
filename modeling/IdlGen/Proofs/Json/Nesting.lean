import IdlGen.Proofs.Json.Tokens

/-!
# How deep a text nests

The depth of a text is the greatest number of brackets and braces that are open at once. Both texts of
a value are as deep as the value itself.
-/

namespace IdlGen.Json

/-- The greatest number of marks open at once, if some are open before. -/
def Token.nesting (opened : Nat) : List Token → Nat
  | [] => opened
  | .mark .openBracket :: ts => max opened (nesting (opened + 1) ts)
  | .mark .openBrace :: ts => max opened (nesting (opened + 1) ts)
  | .mark .closeBracket :: ts => max opened (nesting (opened - 1) ts)
  | .mark .closeBrace :: ts => max opened (nesting (opened - 1) ts)
  | _ :: ts => nesting opened ts

/-- How many arrays and objects of a text lie inside each other. -/
def nesting (text : String) : Nat := Token.nesting 0 (Token.scan text.toList)

theorem Token.le_nesting (opened : Nat) (ts : List Token) : opened ≤ Token.nesting opened ts := by
  induction ts with
  | nil => exact Nat.le_refl _
  | cons t ts ih =>
    unfold Token.nesting
    split
    · exact Nat.le_refl _
    · exact Nat.le_max_left _ _
    · exact Nat.le_max_left _ _
    · exact Nat.le_max_left _ _
    · exact Nat.le_max_left _ _
    · rename_i heq
      obtain ⟨-, rfl⟩ := List.cons.inj heq
      exact ih

namespace Token

/-- The tokens go `n` deep, and close all that they open. -/
def Nested (ts : List Token) (n : Nat) : Prop :=
  ∀ opened rest, nesting opened (ts ++ rest) = max (opened + n) (nesting opened rest)

variable {ts us : List Token} {m n : Nat}

theorem Nested.nil : Nested [] 0 :=
  fun opened rest => (Nat.max_eq_right (le_nesting opened rest)).symm

/-- A token that opens and closes nothing goes unnoticed. -/
theorem Nested.cons {t : Token} (ht : ∀ opened rest, nesting opened (t :: rest) = nesting opened rest)
    (h : Nested ts n) : Nested (t :: ts) n := by
  intro opened rest
  rw [List.cons_append, ht, h]

theorem Nested.append (hts : Nested ts n) (hus : Nested us m) : Nested (ts ++ us) (max n m) := by
  intro opened rest
  rw [List.append_assoc, hts, hus]
  omega

theorem Nested.bracketed {first last : Mark}
    (hfirst : ∀ opened rest, nesting opened (.mark first :: rest) =
      max opened (nesting (opened + 1) rest))
    (hlast : ∀ opened rest, nesting opened (.mark last :: rest) =
      max opened (nesting (opened - 1) rest)) (h : Nested ts n) :
    Nested (.mark first :: (ts ++ [.mark last])) (n + 1) := by
  intro opened rest
  have hleast := le_nesting opened rest
  rw [List.cons_append, List.append_assoc, hfirst, h, List.singleton_append, hlast,
    Nat.add_sub_cancel]
  omega

theorem Nested.separate {tss : List (List Token)} (hts : Nested ts n)
    (htss : Nested (Value.separate tss) m) : Nested (Value.separate (ts :: tss)) (max n m) := by
  cases tss with
  | nil =>
    -- Nothing nests no deeper than zero, so `m` is zero.
    have hflat : 0 = max (0 + m) 0 := htss 0 []
    have hm : max n m = n := by omega
    rw [hm]
    exact hts
  | cons us tss => exact hts.append (htss.cons fun _ _ => rfl)

end Token

namespace Value

open Token

mutual

/-- How many arrays and objects of a value lie inside each other. -/
def nesting : Value → Nat
  | array items => itemsNesting items + 1
  | object members => membersNesting members + 1
  | _ => 0

def itemsNesting : List Value → Nat
  | [] => 0
  | v :: more => max (nesting v) (itemsNesting more)

def membersNesting : List (String × Option Value) → Nat
  | [] => 0
  | (_, none) :: more => membersNesting more
  | (_, some v) :: more => max (nesting v) (membersNesting more)

end

theorem nested_items {items : List Value} (h : ∀ v ∈ items, Nested v.tokens v.nesting) :
    Nested (separate (itemTokens items)) (itemsNesting items) := by
  induction items with
  | nil => exact Nested.nil
  | cons v items ih =>
    obtain ⟨hv, hitems⟩ := List.forall_mem_cons.1 h
    exact hv.separate (ih hitems)

theorem nested_members {members : List (String × Option Value)}
    (h : ∀ m ∈ members, ∀ v, m.2 = some v → Nested v.tokens v.nesting) :
    Nested (separate (memberTokens members)) (membersNesting members) := by
  induction members with
  | nil => exact Nested.nil
  | cons m members ih =>
    obtain ⟨hm, hmembers⟩ := List.forall_mem_cons.1 h
    obtain ⟨key, held⟩ := m
    cases held with
    | none => exact ih hmembers
    | some v =>
      have hmember := ((hm v rfl).cons (t := .mark .colon) fun _ _ => rfl).cons
        (t := .string (some key.toList)) fun _ _ => rfl
      exact hmember.separate (ih hmembers)

theorem nested_tokens (v : Value) : Nested v.tokens v.nesting := by
  induction v with
  | null | flag b | integer n | double x | string s => exact Nested.nil.cons fun _ _ => rfl
  | array items ih => exact (nested_items ih).bracketed (fun _ _ => rfl) fun _ _ => rfl
  | object members ih => exact (nested_members ih).bracketed (fun _ _ => rfl) fun _ _ => rfl

/-- Both texts of a value are as deep as the value. -/
theorem nesting_texts {v : Value} (hv : v.Sound) :
    Json.nesting v.toText = v.nesting ∧ Json.nesting v.toIndentedText = v.nesting := by
  obtain ⟨hcompact, hindented⟩ := scan_texts hv
  have hdepth : Token.nesting 0 v.tokens = v.nesting := by
    have hwhole := v.nested_tokens 0 []
    rw [List.append_nil] at hwhole
    rw [hwhole, Token.nesting]
    omega
  rw [Json.nesting, Json.nesting, toText, toIndentedText, String.toList_ofList,
    String.toList_ofList, hcompact, hindented]
  exact ⟨hdepth, hdepth⟩

end Value

end IdlGen.Json
