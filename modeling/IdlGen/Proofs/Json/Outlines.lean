import IdlGen.Json.Outline
import IdlGen.Proofs.Json.Tokens

/-!
# Whole outlines

An outline that goes to the end of its value has tokens, and reading these makes the outline again and
takes no token that stands behind them (`Outline.value_tokens`). Each step of reading takes a token or
follows one that did, so twice the number of tokens is enough steps. Nothing else is read as that
outline. A written value is one text of its outline, in which members without value are left out.
-/

namespace IdlGen.Json

/-! ### Tokens of an outline -/

mutual

/-- The outline goes to the end of its value. -/
def Outline.Whole : Outline → Prop
  | .array items => items.Whole
  | .object members => members.Whole
  | .broken _ => False
  | _ => True

def Items.Whole : Items → Prop
  | .close => True
  | .item value rest => value.Whole ∧ rest.Whole
  | .cut _ => False

def Members.Whole : Members → Prop
  | .close => True
  | .member _ value rest => value.Whole ∧ rest.Whole
  | _ => False

end

mutual

/-- The tokens of a whole outline. -/
def Outline.tokens : Outline → List Token
  | .word w => [.word w]
  | .number n => [.number n]
  | .string text => [.string text]
  | .array items => .mark .openBracket :: items.firstTokens
  | .object members => .mark .openBrace :: members.firstTokens
  | .broken _ => []

/-- What stands behind an opening bracket. -/
def Items.firstTokens : Items → List Token
  | .close => [.mark .closeBracket]
  | .item value rest => value.tokens ++ rest.tokens
  | .cut _ => []

/-- What stands behind an item. -/
def Items.tokens : Items → List Token
  | .close => [.mark .closeBracket]
  | .item value rest => .mark .comma :: (value.tokens ++ rest.tokens)
  | .cut _ => []

/-- What stands behind an opening brace. -/
def Members.firstTokens : Members → List Token
  | .close => [.mark .closeBrace]
  | .member key value rest => .string key :: .mark .colon :: (value.tokens ++ rest.tokens)
  | _ => []

/-- What stands behind a member. -/
def Members.tokens : Members → List Token
  | .close => [.mark .closeBrace]
  | .member key value rest => .mark .comma :: .string key :: .mark .colon :: (value.tokens ++ rest.tokens)
  | _ => []

end

/-- A value does not begin with a closing bracket. -/
theorem Outline.tokens_eq_cons {o : Outline} (h : o.Whole) :
    ∃ t ts, o.tokens = t :: ts ∧ t ≠ .mark .closeBracket := by
  cases o with
  | broken found => exact absurd h id
  | word w | number n | string text | array items | object members => exact ⟨_, _, rfl, by intro h; cases h⟩

theorem Items.tokens_ne_nil {items : Items} (h : items.Whole) : items.tokens ≠ [] := by
  cases items with
  | cut fault => exact absurd h id
  | close | item value rest => exact List.cons_ne_nil _ _

/-! ### Reading the tokens -/

mutual

/-- With enough steps, a whole outline is read from its tokens. -/
theorem Outline.value_tokens : (o : Outline) → o.Whole → (steps : Nat) → (ts : List Token) →
    2 * o.tokens.length ≤ steps → Outline.value steps (o.tokens ++ ts) = (o, ts)
  | .word w, _, steps, ts, hsteps | .number n, _, steps, ts, hsteps
  | .string text, _, steps, ts, hsteps => by
    simp only [Outline.tokens, List.length_singleton] at hsteps
    obtain ⟨steps, rfl⟩ : ∃ n, steps = n + 1 := ⟨steps - 1, by omega⟩
    rfl
  | .array items, h, steps, ts, hsteps => by
    simp only [Outline.tokens, List.length_cons] at hsteps
    obtain ⟨steps, rfl⟩ : ∃ n, steps = n + 1 := ⟨steps - 1, by omega⟩
    rw [Outline.tokens, List.cons_append, Outline.value]
    simp only [items.firstItem_tokens h steps ts (by omega)]
  | .object members, h, steps, ts, hsteps => by
    simp only [Outline.tokens, List.length_cons] at hsteps
    obtain ⟨steps, rfl⟩ : ∃ n, steps = n + 1 := ⟨steps - 1, by omega⟩
    rw [Outline.tokens, List.cons_append, Outline.value]
    simp only [members.firstMember_tokens h steps ts (by omega)]

theorem Items.firstItem_tokens : (items : Items) → items.Whole → (steps : Nat) → (ts : List Token) →
    2 * items.firstTokens.length ≤ steps → Outline.firstItem steps (items.firstTokens ++ ts) = (items, ts)
  | .close, _, steps, ts, hsteps => by
    simp only [Items.firstTokens, List.length_singleton] at hsteps
    obtain ⟨steps, rfl⟩ : ∃ n, steps = n + 1 := ⟨steps - 1, by omega⟩
    rfl
  | .item value rest, ⟨hvalue, hrest⟩, steps, ts, hsteps => by
    have hmore := List.length_pos_of_ne_nil (rest.tokens_ne_nil hrest)
    simp only [Items.firstTokens, List.length_append] at hsteps
    obtain ⟨steps, rfl⟩ : ∃ n, steps = n + 1 := ⟨steps - 1, by omega⟩
    have hfirst := value.value_tokens hvalue steps (rest.tokens ++ ts) (by omega)
    obtain ⟨t, us, htokens, hopen⟩ := Outline.tokens_eq_cons hvalue
    rw [Items.firstTokens, List.append_assoc]
    rw [htokens, List.cons_append] at hfirst ⊢
    rw [Outline.firstItem, hfirst]
    · simp only [rest.nextItem_tokens hrest steps ts (by omega)]
    · exact hopen

theorem Items.nextItem_tokens : (items : Items) → items.Whole → (steps : Nat) → (ts : List Token) →
    2 * items.tokens.length ≤ steps + 1 → Outline.nextItem steps (items.tokens ++ ts) = (items, ts)
  | .close, _, steps, ts, hsteps => by
    simp only [Items.tokens, List.length_singleton] at hsteps
    obtain ⟨steps, rfl⟩ : ∃ n, steps = n + 1 := ⟨steps - 1, by omega⟩
    rfl
  | .item value rest, ⟨hvalue, hrest⟩, steps, ts, hsteps => by
    simp only [Items.tokens, List.length_cons, List.length_append] at hsteps
    obtain ⟨steps, rfl⟩ : ∃ n, steps = n + 1 := ⟨steps - 1, by omega⟩
    have hfirst := value.value_tokens hvalue steps (rest.tokens ++ ts) (by omega)
    rw [Items.tokens, List.cons_append, List.append_assoc, Outline.nextItem, hfirst]
    simp only [rest.nextItem_tokens hrest steps ts (by omega)]

theorem Members.firstMember_tokens :
    (members : Members) → members.Whole → (steps : Nat) → (ts : List Token) →
    2 * members.firstTokens.length ≤ steps →
      Outline.firstMember steps (members.firstTokens ++ ts) = (members, ts)
  | .close, _, steps, ts, hsteps => by
    simp only [Members.firstTokens, List.length_singleton] at hsteps
    obtain ⟨steps, rfl⟩ : ∃ n, steps = n + 1 := ⟨steps - 1, by omega⟩
    rfl
  | .member key value rest, ⟨hvalue, hrest⟩, steps, ts, hsteps => by
    simp only [Members.firstTokens, List.length_cons, List.length_append] at hsteps
    -- One step looks for the closing brace, another one takes the key.
    obtain ⟨steps, rfl⟩ : ∃ n, steps = n + 2 := ⟨steps - 2, by omega⟩
    have hfirst := value.value_tokens hvalue steps (rest.tokens ++ ts) (by omega)
    simp only [Members.firstTokens, List.cons_append, List.append_assoc, Outline.firstMember,
      Outline.member, hfirst, rest.nextMember_tokens hrest steps ts (by omega)]

theorem Members.nextMember_tokens :
    (members : Members) → members.Whole → (steps : Nat) → (ts : List Token) →
    2 * members.tokens.length ≤ steps + 1 →
      Outline.nextMember steps (members.tokens ++ ts) = (members, ts)
  | .close, _, steps, ts, hsteps => by
    simp only [Members.tokens, List.length_singleton] at hsteps
    obtain ⟨steps, rfl⟩ : ∃ n, steps = n + 1 := ⟨steps - 1, by omega⟩
    rfl
  | .member key value rest, ⟨hvalue, hrest⟩, steps, ts, hsteps => by
    simp only [Members.tokens, List.length_cons, List.length_append] at hsteps
    obtain ⟨steps, rfl⟩ : ∃ n, steps = n + 2 := ⟨steps - 2, by omega⟩
    have hfirst := value.value_tokens hvalue steps (rest.tokens ++ ts) (by omega)
    simp only [Members.tokens, List.cons_append, List.append_assoc, Outline.nextMember,
      Outline.member, hfirst, rest.nextMember_tokens hrest steps ts (by omega)]

end

theorem Outline.ofTokens_tokens {o : Outline} (h : o.Whole) : ofTokens o.tokens = (o, []) := by
  have hread := o.value_tokens h (2 * o.tokens.length + 2) [] (by omega)
  rwa [List.append_nil] at hread

/-! ### Nothing else is read as a whole outline -/

namespace Outline

/-- With so many steps, the tokens that are taken for a whole outline are its tokens. -/
structure Takes (steps : Nat) : Prop where
  value (ts : List Token) : (value steps ts).1.Whole → ts = (value steps ts).1.tokens ++ (value steps ts).2
  firstItem (ts : List Token) : (firstItem steps ts).1.Whole →
    ts = (firstItem steps ts).1.firstTokens ++ (firstItem steps ts).2
  nextItem (ts : List Token) : (nextItem steps ts).1.Whole →
    ts = (nextItem steps ts).1.tokens ++ (nextItem steps ts).2
  firstMember (ts : List Token) : (firstMember steps ts).1.Whole →
    ts = (firstMember steps ts).1.firstTokens ++ (firstMember steps ts).2
  member (ts : List Token) : (member steps ts).1.Whole →
    ts = (member steps ts).1.firstTokens ++ (member steps ts).2 ∧
      .mark .comma :: ts = (member steps ts).1.tokens ++ (member steps ts).2
  nextMember (ts : List Token) : (nextMember steps ts).1.Whole →
    ts = (nextMember steps ts).1.tokens ++ (nextMember steps ts).2

section Steps

variable {steps : Nat} (h : ∀ fewer, steps = fewer + 1 → Takes fewer) (ts : List Token)

include h

theorem takes_value : (value steps ts).1.Whole → ts = (value steps ts).1.tokens ++ (value steps ts).2 := by
  fun_cases value steps ts with
  | case1 | case2 | case3 | case4 | case5 | case8 => exact fun _ => rfl
  | case6 steps ts items rest hitems =>
    have hinner := (h steps rfl).firstItem ts
    rw [hitems] at hinner
    exact fun hwhole => congrArg (.mark .openBracket :: ·) (hinner hwhole)
  | case7 steps ts members rest hmembers =>
    have hinner := (h steps rfl).firstMember ts
    rw [hmembers] at hinner
    exact fun hwhole => congrArg (.mark .openBrace :: ·) (hinner hwhole)

theorem takes_firstItem : (firstItem steps ts).1.Whole →
    ts = (firstItem steps ts).1.firstTokens ++ (firstItem steps ts).2 := by
  fun_cases firstItem steps ts with
  | case1 | case2 | case3 => exact fun _ => rfl
  | case4 steps t ts hopen first rest hfirst items left hitems =>
    have hvalue := (h steps rfl).value (t :: ts)
    have hmore := (h steps rfl).nextItem rest
    rw [hfirst] at hvalue
    rw [hitems] at hmore
    rintro ⟨hwhole, hwholeMore⟩
    rw [hvalue hwhole, hmore hwholeMore]
    exact (List.append_assoc _ _ _).symm

theorem takes_nextItem : (nextItem steps ts).1.Whole →
    ts = (nextItem steps ts).1.tokens ++ (nextItem steps ts).2 := by
  fun_cases nextItem steps ts with
  | case1 | case2 | case4 => exact fun _ => rfl
  | case3 steps ts next rest hnext items left hitems =>
    have hvalue := (h steps rfl).value ts
    have hmore := (h steps rfl).nextItem rest
    rw [hnext] at hvalue
    rw [hitems] at hmore
    rintro ⟨hwhole, hwholeMore⟩
    rw [hvalue hwhole, hmore hwholeMore]
    simp [Items.tokens]

theorem takes_firstMember : (firstMember steps ts).1.Whole →
    ts = (firstMember steps ts).1.firstTokens ++ (firstMember steps ts).2 := by
  fun_cases firstMember steps ts with
  | case1 | case2 => exact fun _ => rfl
  | case3 steps hopen => exact fun hwhole => ((h steps rfl).member ts hwhole).1

theorem takes_member : (member steps ts).1.Whole →
    ts = (member steps ts).1.firstTokens ++ (member steps ts).2 ∧
      .mark .comma :: ts = (member steps ts).1.tokens ++ (member steps ts).2 := by
  fun_cases member steps ts with
  | case1 | case3 | case4 => exact fun hwhole => absurd hwhole id
  | case2 steps key ts value rest hvalue members left hmembers =>
    have hfirst := (h steps rfl).value ts
    have hmore := (h steps rfl).nextMember rest
    rw [hvalue] at hfirst
    rw [hmembers] at hmore
    rintro ⟨hwhole, hwholeMore⟩
    have htokens : .string key :: .mark .colon :: ts =
        (Members.member key value members).firstTokens ++ left := by
      rw [hfirst hwhole, hmore hwholeMore]
      simp [Members.firstTokens]
    exact ⟨htokens, congrArg (.mark .comma :: ·) htokens⟩

theorem takes_nextMember : (nextMember steps ts).1.Whole →
    ts = (nextMember steps ts).1.tokens ++ (nextMember steps ts).2 := by
  fun_cases nextMember steps ts with
  | case1 | case2 | case4 => exact fun _ => rfl
  | case3 steps ts => exact fun hwhole => ((h steps rfl).member ts hwhole).2

omit ts in
theorem Takes.of_fewer : Takes steps :=
  ⟨takes_value h, takes_firstItem h, takes_nextItem h, takes_firstMember h, takes_member h,
    takes_nextMember h⟩

end Steps

theorem takes (steps : Nat) : Takes steps := by
  induction steps with
  | zero => exact .of_fewer fun fewer hfewer => nomatch hfewer
  | succ steps ih =>
    apply Takes.of_fewer
    intro fewer hfewer
    obtain rfl := Nat.succ.inj hfewer
    exact ih

theorem tokens_of_ofTokens {o : Outline} {ts rest : List Token} (h : ofTokens ts = (o, rest))
    (hwhole : o.Whole) : ts = o.tokens ++ rest := by
  have htakes := (takes (2 * ts.length + 2)).value ts
  rw [ofTokens] at h
  rw [h] at htakes
  exact htakes hwhole

end Outline

namespace Value

mutual

/-- The outline of a written value. -/
def outline : Value → Outline
  | null => .word .null
  | flag b => .word (if b then .yes else .no)
  | integer n => .number (.ofInt n)
  | double x => .number (numeral x)
  | string s => .string (some s.toList)
  | array items => .array (itemsOutline items)
  | object members => .object (membersOutline members)

def itemsOutline : List Value → Items
  | [] => .close
  | v :: more => .item (outline v) (itemsOutline more)

def membersOutline : List (String × Option Value) → Members
  | [] => .close
  | (_, none) :: more => membersOutline more
  | (key, some v) :: more => .member (some key.toList) (outline v) (membersOutline more)

end


/-! ### Outlines of values -/

/-- Token sequences with a comma in front of each. -/
def behindCommas (tss : List (List Token)) : List Token := tss.flatMap (.mark .comma :: ·)

theorem separate_cons (ts : List Token) (tss : List (List Token)) :
    separate (ts :: tss) = ts ++ behindCommas tss := by
  induction tss generalizing ts with
  | nil => exact (List.append_nil ts).symm
  | cons us tss ih =>
    rw [separate, ih]
    · rfl
    · exact List.cons_ne_nil _ _

theorem behindCommas_items {items : List Value} (h : ∀ v ∈ items, v.tokens = v.outline.tokens) :
    behindCommas (itemTokens items) ++ [.mark .closeBracket] = (itemsOutline items).tokens := by
  induction items with
  | nil => rfl
  | cons v items ih =>
    obtain ⟨hv, hitems⟩ := List.forall_mem_cons.1 h
    rw [itemsOutline, Items.tokens, ← hv, ← ih hitems, ← List.append_assoc]
    rfl

theorem separate_items {items : List Value} (h : ∀ v ∈ items, v.tokens = v.outline.tokens) :
    separate (itemTokens items) ++ [.mark .closeBracket] = (itemsOutline items).firstTokens := by
  cases items with
  | nil => rfl
  | cons v items =>
    obtain ⟨hv, hitems⟩ := List.forall_mem_cons.1 h
    rw [itemTokens, separate_cons, itemsOutline, Items.firstTokens, ← hv, ← behindCommas_items hitems,
      List.append_assoc]

theorem behindCommas_members {members : List (String × Option Value)}
    (h : ∀ m ∈ members, ∀ v, m.2 = some v → v.tokens = v.outline.tokens) :
    behindCommas (memberTokens members) ++ [.mark .closeBrace] = (membersOutline members).tokens := by
  induction members with
  | nil => rfl
  | cons m members ih =>
    obtain ⟨hm, hmembers⟩ := List.forall_mem_cons.1 h
    obtain ⟨key, held⟩ := m
    cases held with
    | none => exact ih hmembers
    | some v =>
      rw [membersOutline, Members.tokens, ← hm v rfl, ← ih hmembers, ← List.append_assoc]
      rfl

theorem separate_members {members : List (String × Option Value)}
    (h : ∀ m ∈ members, ∀ v, m.2 = some v → v.tokens = v.outline.tokens) :
    separate (memberTokens members) ++ [.mark .closeBrace] = (membersOutline members).firstTokens := by
  induction members with
  | nil => rfl
  | cons m members ih =>
    obtain ⟨hm, hmembers⟩ := List.forall_mem_cons.1 h
    obtain ⟨key, held⟩ := m
    cases held with
    | none => exact ih hmembers
    | some v =>
      rw [memberTokens, separate_cons, membersOutline, Members.firstTokens, ← hm v rfl,
        ← behindCommas_members hmembers]
      simp

theorem tokens_outline (v : Value) : v.tokens = v.outline.tokens := by
  induction v with
  | null | flag b | integer n | double x | string s => rfl
  | array items ih => exact congrArg (Token.mark .openBracket :: ·) (separate_items ih)
  | object members ih => exact congrArg (Token.mark .openBrace :: ·) (separate_members ih)

theorem whole_items {items : List Value} (h : ∀ v ∈ items, v.outline.Whole) :
    (itemsOutline items).Whole := by
  induction items with
  | nil => exact trivial
  | cons v items ih =>
    obtain ⟨hv, hitems⟩ := List.forall_mem_cons.1 h
    exact ⟨hv, ih hitems⟩

theorem whole_members {members : List (String × Option Value)}
    (h : ∀ m ∈ members, ∀ v, m.2 = some v → v.outline.Whole) : (membersOutline members).Whole := by
  induction members with
  | nil => exact trivial
  | cons m members ih =>
    obtain ⟨hm, hmembers⟩ := List.forall_mem_cons.1 h
    obtain ⟨key, held⟩ := m
    cases held with
    | none => exact ih hmembers
    | some v => exact ⟨hm v rfl, ih hmembers⟩

theorem whole_outline (v : Value) : v.outline.Whole := by
  induction v with
  | null | flag b | integer n | double x | string s => exact trivial
  | array items ih => exact whole_items ih
  | object members ih => exact whole_members ih

/-- Both texts of a value have its outline, and nothing stands behind it. -/
theorem ofText_texts {v : Value} (hv : v.Sound) :
    Outline.ofText v.compact = (v.outline, []) ∧ Outline.ofText (v.indented 0) = (v.outline, []) := by
  obtain ⟨hcompact, hindented⟩ := scan_texts hv
  have hvalue := Outline.ofTokens_tokens v.whole_outline
  rw [Outline.ofText, Outline.ofText, hcompact, hindented, v.tokens_outline]
  exact ⟨hvalue, hvalue⟩

end Value

end IdlGen.Json
