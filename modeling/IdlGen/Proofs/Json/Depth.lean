import IdlGen.Proofs.Except
import IdlGen.Proofs.Json.Reading

/-!
# How deep a value can come out of a text

Reading takes from a text no more arrays and objects inside each other than the text has, and no more
than it allows. Where the text leaves something out, what is filled in may add one more.
-/

namespace IdlGen.Json

/-! ### Outlines -/

mutual

/-- How many arrays and objects of an outline lie inside each other. -/
def Outline.nesting : Outline → Nat
  | .array items => items.nesting + 1
  | .object members => members.nesting + 1
  | _ => 0

def Items.nesting : Items → Nat
  | .item value rest => max value.nesting rest.nesting
  | _ => 0

def Members.nesting : Members → Nat
  | .member _ value rest => max value.nesting rest.nesting
  | _ => 0

end

/-- More marks open before do not make a text less deep. -/
theorem Token.nesting_mono {m n : Nat} (h : m ≤ n) (ts : List Token) :
    Token.nesting m ts ≤ Token.nesting n ts := by
  induction ts generalizing m n with
  | nil => exact h
  | cons t ts ih =>
    have hopen : nesting (m + 1) ts ≤ nesting (n + 1) ts := ih (by omega)
    have hclose : nesting (m - 1) ts ≤ nesting (n - 1) ts := ih (by omega)
    have hsame : nesting m ts ≤ nesting n ts := ih h
    cases t with
    | mark mark =>
      cases mark with
      | openBracket | openBrace | closeBracket | closeBrace =>
        simp only [nesting]
        omega
      | comma | colon => exact hsame
    | word w | number n | string text | broken start wanted ignored => exact hsame

namespace Outline

/-- What has been read of the tokens nests within them, with so many marks open before, and so does what
is left. -/
def Within (opened : Nat) (ts : List Token) (n : Nat) (rest : List Token) : Prop :=
  n + opened ≤ Token.nesting opened ts ∧ Token.nesting opened rest ≤ Token.nesting opened ts

/-- The same where the tokens stand behind a mark that is still open, and the rest behind the mark that
closes it. -/
def WithinOpen (opened : Nat) (ts : List Token) (n : Nat) (rest : List Token) : Prop :=
  n + (opened + 1) ≤ Token.nesting (opened + 1) ts ∧
    Token.nesting opened rest ≤ Token.nesting (opened + 1) ts

theorem WithinOpen.nothing (opened : Nat) (ts : List Token) : WithinOpen opened ts 0 ts := by
  refine ⟨?_, Token.nesting_mono (Nat.le_succ _) ts⟩
  rw [Nat.zero_add]
  exact Token.le_nesting _ ts

theorem WithinOpen.closed {t : Token} {opened : Nat} {ts : List Token}
    (ht : Token.nesting (opened + 1) (t :: ts) = max (opened + 1) (Token.nesting opened ts)) :
    WithinOpen opened (t :: ts) 0 ts := by
  unfold WithinOpen
  omega

/-- A value and what stands behind it. -/
theorem Within.andThen {opened m n : Nat} {ts us vs : List Token} (h : Within (opened + 1) ts m us)
    (hmore : WithinOpen opened us n vs) : WithinOpen opened ts (max m n) vs := by
  unfold Within at h
  unfold WithinOpen at hmore ⊢
  omega

/-- A token that opens and closes nothing goes unnoticed. -/
theorem WithinOpen.cons {t : Token} {opened n : Nat} {ts us : List Token}
    (ht : ∀ opened ts, Token.nesting opened (t :: ts) = Token.nesting opened ts)
    (h : WithinOpen opened ts n us) : WithinOpen opened (t :: ts) n us := by
  unfold WithinOpen at h ⊢
  rwa [ht]

theorem WithinOpen.whole {t : Token} {opened n : Nat} {ts us : List Token}
    (ht : Token.nesting opened (t :: ts) = max opened (Token.nesting (opened + 1) ts))
    (h : WithinOpen opened ts n us) : Within opened (t :: ts) (n + 1) us := by
  unfold WithinOpen at h
  unfold Within
  omega

theorem Within.nothing (opened : Nat) (ts : List Token) : Within opened ts 0 ts := by
  have hleast := Token.le_nesting opened ts
  unfold Within
  omega

/-- With so many steps, what is read nests within the tokens. -/
structure Bounded (steps : Nat) : Prop where
  value (opened : Nat) (ts : List Token) :
    Within opened ts (value steps ts).1.nesting (value steps ts).2
  firstItem (opened : Nat) (ts : List Token) :
    WithinOpen opened ts (firstItem steps ts).1.nesting (firstItem steps ts).2
  nextItem (opened : Nat) (ts : List Token) :
    WithinOpen opened ts (nextItem steps ts).1.nesting (nextItem steps ts).2
  firstMember (opened : Nat) (ts : List Token) :
    WithinOpen opened ts (firstMember steps ts).1.nesting (firstMember steps ts).2
  member (opened : Nat) (ts : List Token) :
    WithinOpen opened ts (member steps ts).1.nesting (member steps ts).2
  nextMember (opened : Nat) (ts : List Token) :
    WithinOpen opened ts (nextMember steps ts).1.nesting (nextMember steps ts).2

section Steps

variable {steps : Nat} (h : ∀ fewer, steps = fewer + 1 → Bounded fewer) (opened : Nat)
  (ts : List Token)

include h

theorem within_value : Within opened ts (value steps ts).1.nesting (value steps ts).2 := by
  fun_cases value steps ts with
  | case1 | case2 | case3 | case4 | case5 | case8 => exact Within.nothing opened _
  | case6 steps ts items rest hitems =>
    have hinner := (h steps rfl).firstItem opened ts
    rw [hitems] at hinner
    exact hinner.whole rfl
  | case7 steps ts members rest hmembers =>
    have hinner := (h steps rfl).firstMember opened ts
    rw [hmembers] at hinner
    exact hinner.whole rfl

theorem within_firstItem :
    WithinOpen opened ts (firstItem steps ts).1.nesting (firstItem steps ts).2 := by
  fun_cases firstItem steps ts with
  | case1 | case3 => exact .nothing opened _
  | case2 => exact .closed rfl
  | case4 steps t ts hopen first rest hfirst items left hitems =>
    have hvalue := (h steps rfl).value (opened + 1) (t :: ts)
    have hmore := (h steps rfl).nextItem opened rest
    rw [hfirst] at hvalue
    rw [hitems] at hmore
    exact hvalue.andThen hmore

theorem within_nextItem :
    WithinOpen opened ts (nextItem steps ts).1.nesting (nextItem steps ts).2 := by
  fun_cases nextItem steps ts with
  | case1 | case4 => exact .nothing opened _
  | case2 => exact .closed rfl
  | case3 steps ts next rest hnext items left hitems =>
    have hvalue := (h steps rfl).value (opened + 1) ts
    have hmore := (h steps rfl).nextItem opened rest
    rw [hnext] at hvalue
    rw [hitems] at hmore
    exact (hvalue.andThen hmore).cons fun _ _ => rfl

theorem within_firstMember :
    WithinOpen opened ts (firstMember steps ts).1.nesting (firstMember steps ts).2 := by
  fun_cases firstMember steps ts with
  | case1 => exact .nothing opened _
  | case2 => exact .closed rfl
  | case3 steps hopen => exact (h steps rfl).member opened ts

theorem within_member :
    WithinOpen opened ts (member steps ts).1.nesting (member steps ts).2 := by
  fun_cases member steps ts with
  | case1 | case4 => exact .nothing opened _
  | case2 steps key ts value rest hvalue members left hmembers =>
    have hfirst := (h steps rfl).value (opened + 1) ts
    have hmore := (h steps rfl).nextMember opened rest
    rw [hvalue] at hfirst
    rw [hmembers] at hmore
    exact ((hfirst.andThen hmore).cons fun _ _ => rfl).cons fun _ _ => rfl
  | case3 steps key ts hbare =>
    exact (WithinOpen.nothing opened ts).cons fun _ _ => rfl

theorem within_nextMember :
    WithinOpen opened ts (nextMember steps ts).1.nesting (nextMember steps ts).2 := by
  fun_cases nextMember steps ts with
  | case1 | case4 => exact .nothing opened _
  | case2 => exact .closed rfl
  | case3 steps ts => exact ((h steps rfl).member opened ts).cons fun _ _ => rfl

omit opened ts in
theorem Bounded.of_fewer : Bounded steps :=
  ⟨within_value h, within_firstItem h, within_nextItem h, within_firstMember h, within_member h,
    within_nextMember h⟩

end Steps

theorem bounded (steps : Nat) : Bounded steps := by
  induction steps with
  | zero =>
    apply Bounded.of_fewer
    intro fewer hfewer
    cases hfewer
  | succ steps ih =>
    apply Bounded.of_fewer
    intro fewer hfewer
    obtain rfl := Nat.succ.inj hfewer
    exact ih

/-- The outline of a text nests no deeper than the text. -/
theorem nesting_ofText (text : String) : (ofText text.toList).1.nesting ≤ Json.nesting text := by
  have hwithin := (bounded (2 * (Token.scan text.toList).length + 2)).value 0 (Token.scan text.toList)
  exact hwithin.1

end Outline

/-! ### Values -/

theorem Value.itemsNesting_le {items : List Value} {n : Nat} (h : ∀ v ∈ items, v.nesting ≤ n) :
    itemsNesting items ≤ n := by
  induction items with
  | nil => exact Nat.zero_le n
  | cons v items ih =>
    obtain ⟨hv, hitems⟩ := List.forall_mem_cons.1 h
    exact Nat.max_le.2 ⟨hv, ih hitems⟩

/-- What is held, if anything, nests at most so deep. -/
def HeldWithin (n : Nat) (held : Option Value) : Prop := ∀ v, held = some v → v.nesting ≤ n

theorem HeldWithin.none (n : Nat) : HeldWithin n none := nofun

theorem HeldWithin.some {n : Nat} {v : Value} (h : v.nesting ≤ n) : HeldWithin n (some v) := by
  intro w hw
  obtain rfl := Option.some.inj hw
  exact h

theorem Value.heldWithin_members (members : List (String × Option Value)) :
    ∀ m ∈ members, HeldWithin (membersNesting members) m.2 := by
  induction members with
  | nil => exact fun m hm => absurd hm List.not_mem_nil
  | cons m members ih =>
    obtain ⟨key, held⟩ := m
    cases held with
    | none => exact List.forall_mem_cons.2 ⟨.none _, ih⟩
    | some v =>
      refine List.forall_mem_cons.2 ⟨.some (Nat.le_max_left _ _), fun m hm w hw => ?_⟩
      exact Nat.le_trans (ih m hm w hw) (Nat.le_max_right _ _)

theorem Value.membersNesting_le {members : List (String × Option Value)} {n : Nat}
    (h : ∀ m ∈ members, HeldWithin n m.2) : membersNesting members ≤ n := by
  induction members with
  | nil => exact Nat.zero_le n
  | cons m members ih =>
    obtain ⟨hm, hmembers⟩ := List.forall_mem_cons.1 h
    obtain ⟨key, held⟩ := m
    cases held with
    | none => exact ih hmembers
    | some v => exact Nat.max_le.2 ⟨hm v rfl, ih hmembers⟩

variable {κ : Type} {body : κ → Body κ}

theorem nesting_recordValue {slots : List (Slot κ)} {held : List (Option Value)} {n : Nat}
    (h : ∀ value ∈ held, HeldWithin n value) : (recordValue slots held).nesting ≤ n + 1 := by
  apply Nat.succ_le_succ
  apply Value.membersNesting_le
  intro m hm
  rw [← List.map_uncurry_zip_eq_zipWith] at hm
  obtain ⟨⟨slot, value⟩, hzip, rfl⟩ := List.mem_map.1 hm
  exact h value (List.of_mem_zip hzip).2

/-- What is filled in for a missing member is no deeper than an empty array or object. -/
def Presence.Shallow : Presence → Prop
  | .otherwise v => v.nesting ≤ 1
  | .required => True
  | .optional => True

instance : DecidablePred Presence.Shallow
  | .otherwise v => inferInstanceAs (Decidable (v.nesting ≤ 1))
  | .required => inferInstanceAs (Decidable True)
  | .optional => inferInstanceAs (Decidable True)

def ShallowSlots (slots : List (Slot κ)) : Prop := ∀ slot ∈ slots, slot.presence.Shallow

instance (slots : List (Slot κ)) : Decidable (ShallowSlots slots) :=
  inferInstanceAs (Decidable (∀ slot ∈ slots, slot.presence.Shallow))

def ShallowGrammar (body : κ → Body κ) : Prop :=
  ∀ name slots, body name = .record slots → ShallowSlots slots

theorem settle_within {presence : Presence} {held : Option Value} (n : Nat)
    (hshallow : presence.Shallow) (h : presence.settle = .ok held) : HeldWithin (n + 1) held := by
  cases presence with
  | required => cases h
  | optional =>
    obtain rfl := Except.ok.inj h
    exact .none _
  | otherwise v =>
    obtain rfl := Except.ok.inj h
    have hv : v.nesting ≤ 1 := hshallow
    exact .some (by omega)

theorem settleAll_within {slots : List (Slot κ)} {seen : List (String × Option Value)}
    {held : List (Option Value)} {n : Nat} (hslots : ShallowSlots slots)
    (hseen : ∀ e ∈ seen, HeldWithin (n + 1) e.2) (h : settleAll slots seen = .ok held) :
    ∀ value ∈ held, HeldWithin (n + 1) value := by
  unfold settleAll at h
  induction slots generalizing held with
  | nil =>
    obtain rfl := Except.ok.inj h
    exact fun value hvalue => absurd hvalue List.not_mem_nil
  | cons slot slots ih =>
    obtain ⟨hslot, hmore⟩ := List.forall_mem_cons.1 hslots
    rw [List.mapM_cons] at h
    obtain ⟨value, hvalue, h⟩ := bind_eq_ok.1 h
    obtain ⟨values, hvalues, h⟩ := bind_eq_ok.1 h
    obtain rfl := pure_eq_ok.1 h
    refine List.forall_mem_cons.2 ⟨?_, ih hmore hvalues⟩
    split at hvalue
    · rename_i found hfound
      obtain rfl := Except.ok.inj hvalue
      obtain ⟨before, after, rfl, -⟩ := List.lookup_eq_some_iff.1 hfound
      exact hseen (slot.key, found) (List.mem_append_right _ List.mem_cons_self)
    · exact settle_within n hslot hvalue

theorem nesting_readBareCase {cases : List (String × Option (Format κ))} {o : Outline} {v : Value}
    (h : readBareCase cases o = .ok v) : v.nesting = 0 := by
  unfold readBareCase at h
  split at h
  case h_1 key =>
    split at h
    case h_1 name hcase =>
      obtain rfl := Except.ok.inj h
      rfl
    case h_2 | h_3 => cases h
  case h_2 | h_3 | h_4 => cases h

theorem nesting_readLeaf {f : Format κ} {o : Outline} {v : Value} (h : readLeaf body f o = .ok v) :
    v.nesting = 0 := by
  unfold readLeaf at h
  split at h
  case h_1 | h_2 | h_3 =>
    obtain rfl := Except.ok.inj h
    rfl
  case h_4 low high n =>
    split at h
    case h_1 i hi =>
      split at h
      case isTrue =>
        obtain rfl := Except.ok.inj h
        rfl
      case isFalse => cases h
    case h_2 => cases h
  case h_5 n =>
    split at h
    case h_1 x hx =>
      obtain rfl := Except.ok.inj h
      rfl
    case h_2 => cases h
  case h_6 name =>
    split at h
    case h_1 cases hcases => exact nesting_readBareCase h
    case h_2 => cases h
  case h_7 => cases h

theorem heldWithin_slot {presence : Presence} {o : Outline} {x : Except Fault Value} {n : Nat}
    {held : Option Value} (hread : ∀ v, x = .ok v → v.nesting ≤ n)
    (h : (match presence.null? o with
      | some held => held
      | none => x.map some) = .ok held) : HeldWithin n held := by
  split at h
  case h_1 found hfound =>
    unfold Presence.null? at hfound
    split at hfound
    case h_1 =>
      obtain rfl := Option.some.inj hfound
      obtain rfl := Except.ok.inj h
      exact .none n
    case h_2 =>
      obtain rfl := Option.some.inj hfound
      cases h
    case h_3 => cases hfound
  case h_2 =>
    obtain ⟨v, hv, rfl⟩ := map_eq_ok.1 h
    exact .some (hread v hv)

theorem eq_of_endChoice {v w : Value} {rest : Members} (h : endChoice v rest = .ok w) : w = v := by
  cases rest with
  | close => exact (Except.ok.inj h).symm
  | member key value rest | bare key fault | stray found | cut fault => cases h

mutual

/-- A value read by a format nests at most one level deeper than the text, and than is allowed. -/
theorem nesting_read (hbody : ShallowGrammar body)
    {f : Format κ} {depth n : Nat} {v : Value} :
    (o : Outline) → min depth o.nesting ≤ n → read body f depth o = .ok v → v.nesting ≤ n + 1
  | .array items, hn, h => by
    unfold Outline.nesting at hn
    unfold read at h
    split at h
    case h_1 item =>
      split at h
      case h_1 => cases h
      case h_2 depth =>
        obtain ⟨vs, hvs, rfl⟩ := map_eq_ok.1 h
        -- Behind the bracket the text is one level lower, and so is what is allowed.
        obtain ⟨n, rfl⟩ : ∃ m, n = m + 1 := ⟨n - 1, by omega⟩
        have hitems := nesting_readItems (n := n) hbody items (by omega) hvs
        exact Nat.succ_le_succ (Value.itemsNesting_le hitems)
    case h_2 first second =>
      split at h
      case h_1 => cases h
      case h_2 depth =>
        obtain ⟨held, hheld, rfl⟩ := map_eq_ok.1 h
        obtain ⟨n, rfl⟩ : ∃ m, n = m + 1 := ⟨n - 1, by omega⟩
        have hslots : ShallowSlots
            [(⟨"", first, .required⟩ : Slot κ), ⟨"", second, .required⟩] := by
          simp [ShallowSlots, Presence.Shallow]
        have hrow := nesting_readRow (n := n) hbody hslots items (by omega) hheld
        apply Nat.succ_le_succ
        apply Value.itemsNesting_le
        intro v hv
        obtain ⟨value, hvalue, rfl⟩ := List.mem_filterMap.1 hv
        exact hrow _ hvalue v rfl
    case h_3 name =>
      split at h
      case h_1 slots hslots =>
        split at h
        case h_1 => cases h
        case h_2 depth =>
          obtain ⟨held, hheld, rfl⟩ := map_eq_ok.1 h
          obtain ⟨n, rfl⟩ : ∃ m, n = m + 1 := ⟨n - 1, by omega⟩
          have hrow := nesting_readRow (n := n) hbody (hbody name slots hslots) items (by omega) hheld
          exact nesting_recordValue hrow
      case h_2 => cases h
    case h_4 => cases h
  | .object members, hn, h => by
    unfold Outline.nesting at hn
    unfold read at h
    split at h
    case h_1 =>
      split at h
      case h_1 => cases h
      case h_2 depth =>
        obtain ⟨m, -, rfl⟩ := map_eq_ok.1 h
        rw [Value.nesting, nesting_texts]
        omega
    case h_2 name =>
      split at h
      case h_1 => cases h
      case h_2 depth =>
        obtain ⟨n, rfl⟩ : ∃ m, n = m + 1 := ⟨n - 1, by omega⟩
        split at h
        case h_1 slots hslots =>
          obtain ⟨held, hheld, rfl⟩ := map_eq_ok.1 h
          have hmembers := nesting_readMembers (n := n) hbody (hbody name slots hslots)
            (fun e he => absurd he List.not_mem_nil) members (by omega) hheld
          exact nesting_recordValue hmembers
        case h_2 cases hcases =>
          exact nesting_readCase hbody members (by omega) h
    case h_3 => cases h
  | .word w, _, h | .number m, _, h | .string text, _, h | .broken found, _, h => by
    rw [read] at h
    have hleaf := nesting_readLeaf h
    omega

theorem nesting_readItems (hbody : ShallowGrammar body)
    {f : Format κ} {depth n : Nat} {vs : List Value} :
    (items : Items) → min depth items.nesting ≤ n → readItems body f depth items = .ok vs →
      ∀ v ∈ vs, v.nesting ≤ n + 1
  | .close, _, h => by
    obtain rfl := Except.ok.inj h
    exact fun v hv => absurd hv List.not_mem_nil
  | .item value rest, hn, h => by
    unfold Items.nesting at hn
    unfold readItems at h
    split at h
    case h_1 v hv =>
      obtain ⟨vs, hvs, rfl⟩ := map_eq_ok.1 h
      have hvalue := nesting_read (n := n) hbody value (by omega) hv
      have hrest := nesting_readItems (n := n) hbody rest (by omega) hvs
      exact List.forall_mem_cons.2 ⟨hvalue, hrest⟩
    case h_2 => cases h
  | .cut fault, _, h => by
    cases h

theorem nesting_readRow (hbody : ShallowGrammar body)
    {slots : List (Slot κ)} (hslots : ShallowSlots slots) {depth n : Nat}
    {held : List (Option Value)} :
    (items : Items) → min depth items.nesting ≤ n → readRow body slots depth items = .ok held →
      ∀ value ∈ held, HeldWithin (n + 1) value
  | .close, _, h => settleAll_within hslots (fun e he => absurd he List.not_mem_nil) h
  | .item value rest, hn, h => by
    unfold Items.nesting at hn
    unfold readRow at h
    split at h
    case h_1 => cases h
    case h_2 slot slots =>
      dsimp only at h
      split at h
      case h_1 first hfirst =>
        obtain ⟨more, hmore, rfl⟩ := map_eq_ok.1 h
        have hvalue := heldWithin_slot (fun v => nesting_read (n := n) hbody value (by omega)) hfirst
        have hrest := nesting_readRow (n := n) hbody (List.forall_mem_cons.1 hslots).2 rest (by omega) hmore
        exact List.forall_mem_cons.2 ⟨hvalue, hrest⟩
      case h_2 => cases h
  | .cut fault, _, h => by
    cases h

theorem nesting_readMembers (hbody : ShallowGrammar body) {slots : List (Slot κ)}
    (hslots : ShallowSlots slots) {depth n : Nat}
    {seen : List (String × Option Value)} (hseen : ∀ e ∈ seen, HeldWithin (n + 1) e.2)
    {held : List (Option Value)} :
    (members : Members) → min depth members.nesting ≤ n →
      readMembers body slots depth seen members = .ok held → ∀ value ∈ held, HeldWithin (n + 1) value
  | .close, _, h => settleAll_within hslots hseen h
  | .member key value rest, hn, h => by
    unfold Members.nesting at hn
    unfold readMembers at h
    split at h
    case h_1 => cases h
    case h_2 =>
      split at h
      case h_1 => exact nesting_readMembers hbody hslots hseen rest (by omega) h
      case h_2 => cases h
    case h_3 slot hslot =>
      dsimp only at h
      split at h
      case h_1 v hv =>
        have hvalue := heldWithin_slot (fun v => nesting_read (n := n) hbody value (by omega)) hv
        exact nesting_readMembers hbody hslots (List.forall_mem_cons.2 ⟨hvalue, hseen⟩) rest
          (by omega) h
      case h_2 => cases h
  | .bare key fault, _, h => by
    unfold readMembers at h
    split at h
    case h_1 | h_2 => cases h
  | .stray found, _, h | .cut fault, _, h => by
    cases h

theorem nesting_readCase (hbody : ShallowGrammar body)
    {cases : List (String × Option (Format κ))} {depth n : Nat} {v : Value} :
    (members : Members) → min depth members.nesting ≤ n →
      readCase body cases depth members = .ok v → v.nesting ≤ n + 2
  | .close, _, h => by
    cases h
  | .member key value rest, hn, h => by
    unfold Members.nesting at hn
    unfold readCase at h
    split at h
    case h_1 => cases h
    case h_2 name hname =>
      split at h
      case h_1 =>
        rw [eq_of_endChoice h]
        exact Nat.zero_le _
      case h_2 => cases h
    case h_3 name f hname =>
      split at h
      case h_1 w hw =>
        have hvalue := nesting_read (n := n) hbody value (by omega) hw
        rw [eq_of_endChoice h, Value.nesting]
        apply Nat.succ_le_succ
        apply Value.membersNesting_le
        exact List.forall_mem_singleton.2 (.some hvalue)
      case h_2 => cases h
  | .bare key fault, _, h => by
    unfold readCase at h
    split at h
    case h_1 | h_2 => cases h
  | .stray found, _, h | .cut fault, _, h => by
    cases h

end

/-- A value read from a text nests at most one level deeper than the text, and than is allowed. -/
theorem nesting_readText (hbody : ShallowGrammar body) {f : Format κ} {text : String} {v : Value}
    (h : readText body f text.toList = .ok v) : v.nesting ≤ min depthLimit (nesting text) + 1 := by
  have htext := Outline.nesting_ofText text
  unfold readText at h
  split at h
  rename_i outline rest houtline
  rw [houtline] at htext
  split at h
  case h_1 w hw =>
    split at h
    case isTrue =>
      obtain rfl := Except.ok.inj h
      have hflat : outline.nesting ≤ nesting text := htext
      exact nesting_read hbody outline (by omega) hw
    case isFalse => cases h
  case h_2 => cases h

end IdlGen.Json
