import IdlGen.Proofs.Json.Tearing
import IdlGen.Proofs.Json.Writing

/-!
# What is left of an outline

When the text of an outline is torn, its outline breaks off: in a value, behind it, in the key of a
member, or behind that. All before that place is as it was. Only a number in which the text is torn can
be another one.
-/

namespace IdlGen.Json

mutual

/-- What is left of an outline, if what is left is not a whole number. -/
inductive Outline.Torn : Outline → Outline → Prop
  | gone (o : Outline) : Outline.Torn o (.broken none)
  | word (w : Word) (start : Start) :
      Outline.Torn (.word w) (.broken (some (.broken start .truncated .truncated)))
  | string {text : Option (List Char)} {wanted : Fault} (h : text.isSome → wanted = .truncated) :
      Outline.Torn (.string text) (.broken (some (.broken .string wanted .truncated)))
  | number (n : Numeral) : Outline.Torn (.number n) (.broken (some (.broken .number .truncated .malformed)))
  | array {items items' : Items} (h : Items.Torn items items') : Outline.Torn (.array items) (.array items')
  | object {members members' : Members} (h : Members.Torn members members') :
      Outline.Torn (.object members) (.object members')
  /-- A key could stand behind the brace that is left. -/
  | opened : Outline.Torn (.object .close) (.object (.stray none))

inductive Items.Torn : Items → Items → Prop
  | gone (items : Items) : Items.Torn items (.cut .truncated)
  | value {value value' : Outline} (h : Outline.Torn value value') (rest rest' : Items) :
      Items.Torn (.item value rest) (.item value' rest')
  | number {n n' : Numeral} (h : n.Shortened n') (rest : Items) :
      Items.Torn (.item (.number n) rest) (.item (.number n') (.cut .truncated))
  | rest (value : Outline) {rest rest' : Items} (h : Items.Torn rest rest') :
      Items.Torn (.item value rest) (.item value rest')

inductive Members.Torn : Members → Members → Prop
  | gone (members : Members) : Members.Torn members (.cut .truncated)
  /-- Nothing is left of the key. -/
  | unnamed (key : Option (List Char)) (value : Outline) (rest : Members) :
      Members.Torn (.member key value rest) (.stray none)
  | key {key : Option (List Char)} {wanted : Fault} (h : key.isSome → wanted = .truncated) (value : Outline)
      (rest : Members) :
      Members.Torn (.member key value rest) (.stray (some (.broken .string wanted .truncated)))
  | bare (key : Option (List Char)) (value : Outline) (rest : Members) :
      Members.Torn (.member key value rest) (.bare key .truncated)
  | value (key : Option (List Char)) {value value' : Outline} (h : Outline.Torn value value')
      (rest rest' : Members) :
      Members.Torn (.member key value rest) (.member key value' rest')
  | number (key : Option (List Char)) {n n' : Numeral} (h : n.Shortened n') (rest : Members) :
      Members.Torn (.member key (.number n) rest) (.member key (.number n') (.cut .truncated))
  | rest (key : Option (List Char)) (value : Outline) {rest rest' : Members} (h : Members.Torn rest rest') :
      Members.Torn (.member key value rest) (.member key value rest')

end

/-! ### From torn tokens -/

namespace Token.TornTokens

/-- Either the first part is torn, or it is whole and the second is. -/
theorem append {ts us left : List Token} (h : TornTokens (ts ++ us) left) :
    TornTokens ts left ∨ ∃ behind, left = ts ++ behind ∧ TornTokens us behind := by
  induction ts generalizing left with
  | nil => exact .inr ⟨left, rfl, h⟩
  | cons t ts ih =>
    cases h with
    | gone => exact .inl (.gone t ts)
    | torn h => exact .inl (.torn h ts)
    | kept _ h =>
      rcases ih h with htorn | ⟨behind, rfl, hbehind⟩
      · exact .inl (.kept t htorn)
      · exact .inr ⟨behind, rfl, hbehind⟩

/-- No mark is left of a token that was none. -/
theorem head_ne {t u : Token} {ts us : List Token} {m : Mark} (h : TornTokens (t :: ts) (u :: us))
    (ht : t ≠ .mark m) : u ≠ .mark m := by
  cases h with
  | kept => exact ht
  | torn h =>
    intro hmark
    subst hmark
    cases h

end Token.TornTokens

/-- What is left of the tokens of a value is a number that has lost digits, or is read as what is left of
the value. -/
def Outline.ReadsTorn (o : Outline) (steps : Nat) (left : List Token) : Prop :=
  (∃ n n', o = .number n ∧ n.Shortened n' ∧ left = [.number n']) ∨
    ∃ o' rest, value steps left = (o', rest) ∧ o.Torn o'

/-- The same of the rest of an array. -/
def Items.ReadsTorn (items : Items) (read : List Token → Items × List Token) (left : List Token) : Prop :=
  ∃ items' rest, read left = (items', rest) ∧ items.Torn items'

def Members.ReadsTorn (members : Members) (read : List Token → Members × List Token)
    (left : List Token) : Prop :=
  ∃ members' rest, read left = (members', rest) ∧ members.Torn members'

/-- Reads an item and what stands behind it. -/
def Outline.itemAndRest (steps : Nat) (left : List Token) : Items × List Token :=
  let first := value steps left
  let items := nextItem steps first.2
  (.item first.1 items.1, items.2)

theorem Outline.firstItem_eq {steps : Nat} {t : Token} (ht : t ≠ .mark .closeBracket) (ts : List Token) :
    firstItem (steps + 1) (t :: ts) = itemAndRest steps (t :: ts) := by
  rw [firstItem]
  · rfl
  · exact ht

theorem Outline.firstMember_eq {steps : Nat} {t : Token} (ht : t ≠ .mark .closeBrace) (ts : List Token) :
    firstMember (steps + 1) (t :: ts) = member steps (t :: ts) := by
  rw [firstMember]
  intro us hmark
  exact ht (List.cons.inj hmark).1

section Steps

open Token

variable {value : Outline} {steps : Nat} {left : List Token}

/-- A value and the items behind it. -/
theorem Items.readsTorn_item {rest : Items} (hwhole : value.Whole)
    (hvalue : ∀ left, TornTokens value.tokens left → 2 * left.length + 2 ≤ steps →
      value.ReadsTorn steps left)
    (hrest : ∀ left, TornTokens rest.tokens left → 2 * left.length + 1 ≤ steps →
      rest.ReadsTorn (Outline.nextItem steps) left)
    (h : TornTokens (value.tokens ++ rest.tokens) left) (hsteps : 2 * left.length + 2 ≤ steps) :
    (Items.item value rest).ReadsTorn (Outline.itemAndRest steps) left := by
  obtain ⟨steps, rfl⟩ : ∃ n, steps = n + 1 := ⟨steps - 1, by omega⟩
  rcases h.append with htorn | ⟨behind, rfl, hbehind⟩
  · rcases hvalue left htorn hsteps with ⟨n, n', rfl, hshorter, rfl⟩ | ⟨o', rest', hread, htorn'⟩
    · exact ⟨_, _, rfl, .number hshorter rest⟩
    · refine ⟨_, (Outline.nextItem (steps + 1) rest').2, ?_,
        .value htorn' rest (Outline.nextItem (steps + 1) rest').1⟩
      rw [Outline.itemAndRest, hread]
  · rw [List.length_append] at hsteps
    obtain ⟨items', rest', hread, htorn⟩ := hrest behind hbehind (by omega)
    have hwhole' := value.value_tokens hwhole (steps + 1) behind (by omega)
    refine ⟨_, rest', ?_, .rest value htorn⟩
    rw [Outline.itemAndRest, hwhole', hread]

/-- A member and those behind it. -/
theorem Members.readsTorn_member {key : Option (List Char)} {rest : Members} (hwhole : value.Whole)
    (hvalue : ∀ left, TornTokens value.tokens left → 2 * left.length + 2 ≤ steps →
      value.ReadsTorn steps left)
    (hrest : ∀ left, TornTokens rest.tokens left → 2 * left.length + 1 ≤ steps →
      rest.ReadsTorn (Outline.nextMember steps) left)
    (h : TornTokens (.string key :: .mark .colon :: (value.tokens ++ rest.tokens)) left)
    (hsteps : 2 * left.length ≤ steps + 1) :
    (Members.member key value rest).ReadsTorn (Outline.member (steps + 1)) left := by
  cases h with
  | gone => exact ⟨_, _, rfl, .unnamed key value rest⟩
  | torn h =>
    cases h with
    | string h => exact ⟨_, _, rfl, .key h value rest⟩
  | kept _ h =>
    cases h with
    | gone => exact ⟨_, _, rfl, .bare key value rest⟩
    | torn h => cases h
    | @kept _ _ left h =>
      simp only [List.length_cons] at hsteps
      obtain ⟨steps, rfl⟩ : ∃ n, steps = n + 1 := ⟨steps - 1, by omega⟩
      rcases h.append with htorn | ⟨behind, rfl, hbehind⟩
      · rcases hvalue left htorn (by omega) with ⟨n, n', rfl, hshorter, rfl⟩ | ⟨o', rest', hread, htorn'⟩
        · exact ⟨_, _, rfl, .number key hshorter rest⟩
        · refine ⟨_, (Outline.nextMember (steps + 1) rest').2, ?_,
            .value key htorn' rest (Outline.nextMember (steps + 1) rest').1⟩
          simp only [Outline.member, hread]
      · rw [List.length_append] at hsteps
        obtain ⟨members', rest', hread, htorn⟩ := hrest behind hbehind (by omega)
        have hwhole' := value.value_tokens hwhole (steps + 1) behind (by omega)
        refine ⟨_, rest', ?_, .rest key value htorn⟩
        simp only [Outline.member, hwhole', hread]

end Steps

open Token in
mutual

theorem Outline.readsTorn : (o : Outline) → o.Whole → (steps : Nat) → (left : List Token) →
    TornTokens o.tokens left → 2 * left.length + 2 ≤ steps → o.ReadsTorn steps left
  | .word w, _, steps, left, h, hsteps => by
    obtain ⟨steps, rfl⟩ : ∃ n, steps = n + 1 := ⟨steps - 1, by omega⟩
    cases h with
    | gone => exact .inr ⟨_, _, rfl, .gone _⟩
    | torn h =>
      cases h with
      | word w start => exact .inr ⟨_, _, rfl, .word w start⟩
    | kept _ h => cases h
  | .string text, _, steps, left, h, hsteps => by
    obtain ⟨steps, rfl⟩ : ∃ n, steps = n + 1 := ⟨steps - 1, by omega⟩
    cases h with
    | gone => exact .inr ⟨_, _, rfl, .gone _⟩
    | torn h =>
      cases h with
      | string h => exact .inr ⟨_, _, rfl, .string h⟩
    | kept _ h => cases h
  | .number n, _, steps, left, h, hsteps => by
    obtain ⟨steps, rfl⟩ : ∃ n, steps = n + 1 := ⟨steps - 1, by omega⟩
    cases h with
    | gone => exact .inr ⟨_, _, rfl, .gone _⟩
    | torn h =>
      cases h with
      | number n => exact .inr ⟨_, _, rfl, .number n⟩
      | digits h => exact .inl ⟨n, _, rfl, h, rfl⟩
    | kept _ h => cases h
  | .array items, hwhole, steps, left, h, hsteps => by
    obtain ⟨steps, rfl⟩ : ∃ n, steps = n + 1 := ⟨steps - 1, by omega⟩
    cases h with
    | gone => exact .inr ⟨_, _, rfl, .gone _⟩
    | torn h => cases h
    | @kept _ _ left h =>
      simp only [List.length_cons] at hsteps
      obtain ⟨items', rest, hread, htorn⟩ := items.readsTorn_first hwhole steps left h (by omega)
      refine .inr ⟨_, rest, ?_, .array htorn⟩
      simp only [Outline.value, hread]
  | .object members, hwhole, steps, left, h, hsteps => by
    obtain ⟨steps, rfl⟩ : ∃ n, steps = n + 1 := ⟨steps - 1, by omega⟩
    cases h with
    | gone => exact .inr ⟨_, _, rfl, .gone _⟩
    | torn h => cases h
    | @kept _ _ left h =>
      simp only [List.length_cons] at hsteps
      obtain ⟨members', rest, hread, htorn⟩ := members.readsTorn_first hwhole steps left h (by omega)
      refine .inr ⟨_, rest, ?_, htorn⟩
      simp only [Outline.value, hread]

theorem Items.readsTorn_first : (items : Items) → items.Whole → (steps : Nat) → (left : List Token) →
    TornTokens items.firstTokens left → 2 * left.length + 3 ≤ steps →
      items.ReadsTorn (Outline.firstItem steps) left
  | .close, _, steps, left, h, hsteps => by
    obtain ⟨steps, rfl⟩ : ∃ n, steps = n + 1 := ⟨steps - 1, by omega⟩
    cases h with
    | gone => exact ⟨_, _, rfl, .gone _⟩
    | torn h => cases h
    | kept _ h => cases h
  | .item value rest, ⟨hvalue, hrest⟩, steps, left, h, hsteps => by
    obtain ⟨steps, rfl⟩ : ∃ n, steps = n + 1 := ⟨steps - 1, by omega⟩
    cases left with
    | nil => exact ⟨_, _, rfl, .gone _⟩
    | cons t ts =>
      obtain ⟨u, us, htokens, hopen⟩ := Outline.tokens_eq_cons hvalue
      have hhead : t ≠ .mark .closeBracket := by
        rw [Items.firstTokens, htokens] at h
        exact h.head_ne hopen
      have hread :=
        Items.readsTorn_item hvalue (value.readsTorn hvalue steps) (rest.readsTorn_next hrest steps) h
        (by omega)
      rwa [Items.ReadsTorn, ← Outline.firstItem_eq hhead] at hread

theorem Items.readsTorn_next : (items : Items) → items.Whole → (steps : Nat) → (left : List Token) →
    TornTokens items.tokens left → 2 * left.length + 1 ≤ steps →
      items.ReadsTorn (Outline.nextItem steps) left
  | .close, _, steps, left, h, hsteps => by
    obtain ⟨steps, rfl⟩ : ∃ n, steps = n + 1 := ⟨steps - 1, by omega⟩
    cases h with
    | gone => exact ⟨_, _, rfl, .gone _⟩
    | torn h => cases h
    | kept _ h => cases h
  | .item value rest, ⟨hvalue, hrest⟩, steps, left, h, hsteps => by
    obtain ⟨steps, rfl⟩ : ∃ n, steps = n + 1 := ⟨steps - 1, by omega⟩
    cases h with
    | gone => exact ⟨_, _, rfl, .gone _⟩
    | torn h => cases h
    | @kept _ _ left h =>
      simp only [List.length_cons] at hsteps
      exact Items.readsTorn_item hvalue (value.readsTorn hvalue steps)
        (rest.readsTorn_next hrest steps) h (by omega)

theorem Members.readsTorn_first :
    (members : Members) → members.Whole → (steps : Nat) → (left : List Token) →
    TornTokens members.firstTokens left → 2 * left.length + 2 ≤ steps →
      ∃ members' rest, Outline.firstMember steps left = (members', rest) ∧
        (Outline.object members).Torn (.object members')
  | .close, _, steps, left, h, hsteps => by
    obtain ⟨steps, rfl⟩ : ∃ n, steps = n + 2 := ⟨steps - 2, by omega⟩
    cases h with
    | gone => exact ⟨_, _, rfl, .opened⟩
    | torn h => cases h
    | kept _ h => cases h
  | .member key value rest, ⟨hvalue, hrest⟩, steps, left, h, hsteps => by
    obtain ⟨steps, rfl⟩ : ∃ n, steps = n + 2 := ⟨steps - 2, by omega⟩
    obtain ⟨members', left', hread, htorn⟩ := Members.readsTorn_member hvalue (value.readsTorn hvalue steps)
      (rest.readsTorn_next hrest steps) h (by omega)
    refine ⟨members', left', ?_, .object htorn⟩
    cases left with
    | nil => exact hread
    | cons t ts =>
      have hhead : t ≠ .mark .closeBrace := h.head_ne (by simp)
      rw [Outline.firstMember_eq hhead, hread]

theorem Members.readsTorn_next : (members : Members) → members.Whole → (steps : Nat) → (left : List Token) →
    TornTokens members.tokens left → 2 * left.length + 1 ≤ steps →
      members.ReadsTorn (Outline.nextMember steps) left
  | .close, _, steps, left, h, hsteps => by
    obtain ⟨steps, rfl⟩ : ∃ n, steps = n + 1 := ⟨steps - 1, by omega⟩
    cases h with
    | gone => exact ⟨_, _, rfl, .gone _⟩
    | torn h => cases h
    | kept _ h => cases h
  | .member key value rest, ⟨hvalue, hrest⟩, steps, left, h, hsteps => by
    obtain ⟨steps, rfl⟩ : ∃ n, steps = n + 1 := ⟨steps - 1, by omega⟩
    cases h with
    | gone => exact ⟨_, _, rfl, .gone _⟩
    | torn h => cases h
    | @kept _ _ left h =>
      simp only [List.length_cons] at hsteps
      obtain ⟨steps, rfl⟩ : ∃ n, steps = n + 1 := ⟨steps - 1, by omega⟩
      exact Members.readsTorn_member hvalue (value.readsTorn hvalue steps)
        (rest.readsTorn_next hrest steps) h (by omega)

end

/-- A torn text has what is left of its outline, unless that is a number or only blanks are lost. -/
theorem Writes.torn {text kept lost : List Char} {o : Outline} (h : Writes text o)
    (hsplit : text = kept ++ lost)
    (hnumber : ∀ n, o ≠ .number n) (hlost : ¬∀ c ∈ lost, Token.isBlank c) :
    o.Torn (Outline.ofText kept).1 := by
  obtain ⟨hwhole, hcut⟩ := h
  rcases hcut.torn hsplit with htorn | hblank
  · rcases o.readsTorn hwhole _ _ htorn (Nat.le_refl _) with ⟨n, -, hn, -⟩ | ⟨o', rest, hread, htorn'⟩
    · exact absurd hn (hnumber n)
    · rw [Outline.ofText, Outline.ofTokens, hread]
      exact htorn'
  · exact absurd hblank hlost

end IdlGen.Json
