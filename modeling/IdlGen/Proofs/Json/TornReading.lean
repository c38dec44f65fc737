import IdlGen.Proofs.Json.Parts
import IdlGen.Proofs.Json.Remnants
import IdlGen.Proofs.Json.Shortening

/-!
# Reading what is left

What is left of a written value when its text is torn is refused as cut short, by the format of the
value, before anything else can be found wrong with it. Only a number may be read from what is left of
it, and then the text ends behind that number, so the array or object that holds it is refused. This
needs zero to be allowed where integers are: an integer that loses digits comes nearer to zero.
-/

namespace IdlGen.Json

variable {κ : Type}

/-- Integers may be zero. -/
def Format.AllowsZero : Format κ → Prop
  | .integer low high => low ≤ 0 ∧ 0 ≤ high
  | .list item => item.AllowsZero
  | .pair first second => first.AllowsZero ∧ second.AllowsZero
  | _ => True

instance Format.decidableAllowsZero : (f : Format κ) → Decidable f.AllowsZero
  | .integer low high => inferInstanceAs (Decidable (low ≤ 0 ∧ 0 ≤ high))
  | .list item => item.decidableAllowsZero
  | .pair first second =>
    have := first.decidableAllowsZero
    have := second.decidableAllowsZero
    inferInstanceAs (Decidable (first.AllowsZero ∧ second.AllowsZero))
  | .text | .flag | .double | .texts | .named _ => .isTrue trivial

def Body.AllowsZero : Body κ → Prop
  | .record slots => ∀ slot ∈ slots, slot.format.AllowsZero
  | .choice cases => ∀ c ∈ cases, ∀ f ∈ c.2, f.AllowsZero

instance Body.decidableAllowsZero : (b : Body κ) → Decidable b.AllowsZero
  | .record slots => inferInstanceAs (Decidable (∀ slot ∈ slots, slot.format.AllowsZero))
  | .choice cases => inferInstanceAs (Decidable (∀ c ∈ cases, ∀ f ∈ c.2, f.AllowsZero))

/-- What is left of a value is refused as cut short, unless it is a number, and then it is read. -/
structure RefusedTorn (body : κ → Body κ) (f : Format κ) (depth : Nat) (v : Value) : Prop where
  torn {o : Outline} (ho : v.outline.Torn o) : read body f depth o = .error .truncated
  shortened {n n' : Numeral} (hv : v.outline = .number n) (hn : n.Shortened n') :
    ∃ w, read body f depth (.number n') = .ok w

/-- The value itself is read too. -/
structure ReadWhole (body : κ → Body κ) (f : Format κ) (depth : Nat) (v : Value) : Prop extends
    RefusedTorn body f depth v where
  whole : read body f depth v.outline = .ok v

variable {body : κ → Body κ}

/-! ### Leaves -/

/-- Nothing, or something that is cut short. -/
def CutShort (o : Outline) : Prop :=
  o = .broken none ∨ ∃ start ignored, o = .broken (some (.broken start .truncated ignored))

theorem CutShort.of_word {w : Word} {o : Outline} (h : (Outline.word w).Torn o) : CutShort o := by
  cases h with
  | gone => exact .inl rfl
  | word w start => exact .inr ⟨start, _, rfl⟩

theorem CutShort.of_number {n : Numeral} {o : Outline} (h : (Outline.number n).Torn o) : CutShort o := by
  cases h with
  | gone => exact .inl rfl
  | number n => exact .inr ⟨_, _, rfl⟩

theorem CutShort.of_string {text : List Char} {o : Outline} (h : (Outline.string (some text)).Torn o) :
    CutShort o := by
  cases h with
  | gone => exact .inl rfl
  | string h =>
    obtain rfl := h rfl
    exact .inr ⟨.string, _, rfl⟩

theorem read_gone (f : Format κ) (depth : Nat) : read body f depth (.broken none) = .error .truncated := by
  rw [read]
  cases f with
  | named name =>
    rw [readLeaf]
    cases body name <;> rfl
  | text | flag | integer low high | double | texts | list item | pair first second => rfl

theorem refusedTorn_text (depth : Nat) (s : String) : RefusedTorn body .text depth (.string s) where
  torn ho := by
    rcases CutShort.of_string ho with rfl | ⟨start, ignored, rfl⟩ <;> rfl
  shortened hv := by cases hv

theorem refusedTorn_flag (depth : Nat) (b : Bool) : RefusedTorn body .flag depth (.flag b) where
  torn ho := by
    rcases CutShort.of_word ho with rfl | ⟨start, ignored, rfl⟩ <;> rfl
  shortened hv := by cases hv

theorem refusedTorn_integer {low high n : Int} (depth : Nat) (hlow : low ≤ n) (hhigh : n ≤ high)
    (hsigned : -9223372036854775808 ≤ n) (hunsigned : n < 18446744073709551616)
    (hzero : low ≤ 0 ∧ 0 ≤ high) : RefusedTorn body (.integer low high) depth (.integer n) where
  torn ho := by
    rcases CutShort.of_number ho with rfl | ⟨start, ignored, rfl⟩ <;> rfl
  shortened hv hn := by
    obtain rfl := Outline.number.inj hv
    obtain ⟨i, hi, habove, hbelow⟩ := Numeral.integer?_shortened hsigned hunsigned hn
    have hrange : low ≤ i ∧ i ≤ high := by omega
    rw [read, readLeaf, hi]
    exact ⟨_, if_pos hrange⟩

theorem refusedTorn_double {x : Binary64} (depth : Nat) (hx : Value.ReadsBack x) :
    RefusedTorn body .double depth (.double x) where
  torn ho := by
    rcases CutShort.of_number ho with rfl | ⟨start, ignored, rfl⟩ <;> rfl
  shortened hv hn := by
    obtain rfl := Outline.number.inj hv
    obtain ⟨y, hy⟩ := Option.isSome_iff_exists.1 (Value.toBinary64?_shortened hx hn)
    rw [read, readLeaf, hy]
    exact ⟨_, rfl⟩

/-! ### Slots -/

/-- A slot holds the value, and what is left of the value is refused in the slot too. -/
structure HeldWhole (body : κ → Body κ) (slot : Slot κ) (depth : Nat) (v : Value) : Prop where
  ne_null : v ≠ .null
  readWhole : ReadWhole body slot.format depth v

theorem null?_torn {o o' : Outline} (h : o.Torn o') (presence : Presence) :
    presence.null? o' = none ∨ presence.null? o' = some (.error .truncated) := by
  cases presence with
  | required | otherwise value => exact .inl rfl
  | optional =>
    cases h with
    | gone | string h | number n | array h | object h | opened => exact .inl rfl
    | word w start =>
      cases start with
      | null => exact .inr rfl
      | truth | number | string | nothing => exact .inl rfl

namespace HeldWhole

variable {slot : Slot κ} {depth : Nat} {v : Value}

theorem whole (h : HeldWhole body slot depth v) : readSlot body slot depth v.outline = .ok (some v) := by
  rw [readSlot, null?_outline slot.presence h.ne_null, h.readWhole.whole]
  rfl

theorem torn {o : Outline} (h : HeldWhole body slot depth v) (ho : v.outline.Torn o) :
    readSlot body slot depth o = .error .truncated := by
  have hread := h.readWhole.torn ho
  rcases null?_torn ho slot.presence with hnull | hnull
  · rw [readSlot, hnull, hread]
    rfl
  · rw [readSlot, hnull]

theorem shortened {n n' : Numeral} (h : HeldWhole body slot depth v) (hv : v.outline = .number n)
    (hn : n.Shortened n') : ∃ held, readSlot body slot depth (.number n') = .ok held := by
  obtain ⟨w, hw⟩ := h.readWhole.shortened hv hn
  have hnull : slot.presence.null? (.number n') = none := by cases slot.presence <;> rfl
  rw [readSlot, hnull, hw]
  exact ⟨_, rfl⟩

end HeldWhole

/-! ### Parts -/

theorem readItems_torn {f : Format κ} {depth : Nat} {items : List Value}
    (h : ∀ v ∈ items, ReadWhole body f depth v) {left : Items}
    (hleft : (Value.itemsOutline items).Torn left) :
    readItems body f depth left = .error .truncated := by
  induction items generalizing left with
  | nil =>
    cases hleft with
    | gone => rfl
  | cons v items ih =>
    obtain ⟨hv, hitems⟩ := List.forall_mem_cons.1 h
    rw [Value.itemsOutline] at hleft
    generalize hvalue : v.outline = value at hleft
    cases hleft with
    | gone => rfl
    | value hvalue' rest rest' =>
      rw [readItems_item, hv.torn (hvalue ▸ hvalue')]
      rfl
    | number hn rest =>
      obtain ⟨w, hw⟩ := hv.shortened hvalue hn
      rw [readItems_item, hw]
      rfl
    | rest _ hrest =>
      rw [readItems_item, ← hvalue, hv.whole, ih hitems hrest]
      rfl

theorem readRow_torn {depth : Nat} {slots : List (Slot κ)} {items : List Value}
    (h : List.Forall₂ (fun slot v => HeldWhole body slot depth v) slots items) {left : Items}
    (hleft : (Value.itemsOutline items).Torn left) :
    readRow body slots depth left = .error .truncated := by
  induction h generalizing left with
  | nil =>
    cases hleft with
    | gone => rfl
  | @cons slot v slots items hv hitems ih =>
    rw [Value.itemsOutline] at hleft
    generalize hvalue : v.outline = value at hleft
    cases hleft with
    | gone => rfl
    | value hvalue' rest rest' =>
      rw [readRow_item, hv.torn (hvalue ▸ hvalue')]
      rfl
    | number hn rest =>
      obtain ⟨held, hheld⟩ := hv.shortened hvalue hn
      rw [readRow_item, hheld]
      rfl
    | rest _ hrest =>
      rw [readRow_item, ← hvalue, hv.whole, ih hrest]
      rfl

theorem claim_of_fresh {slots : List (Slot κ)} {slot : Slot κ} {seen : List (String × Option Value)}
    (hkeys : (slots.map (·.key)).Nodup) (hslot : slot ∈ slots) (hfresh : seen.lookup slot.key = none) :
    claim slots seen (some slot.key.toList) = .ok (some slot) := by
  obtain ⟨before, after, rfl⟩ := List.append_of_mem hslot
  simp only [claim, String.ofList_toList, find?_key hkeys, hfresh, Option.isSome_none,
    Bool.false_eq_true, if_false]

/-- The members of a record, from the first slot that has not been passed yet. -/
theorem readMembers_torn {depth : Nat} {slots todo : List (Slot κ)} {held : List (Option Value)}
    (h : List.Forall₂ (fun slot value => ∀ v, value = some v → HeldWhole body slot depth v) todo held)
    (hkeys : (slots.map (·.key)).Nodup) (htodo : (todo.map (·.key)).Nodup)
    (hslots : ∀ slot ∈ todo, slot ∈ slots) {seen : List (String × Option Value)}
    (hfresh : ∀ slot ∈ todo, seen.lookup slot.key = none) {left : Members}
    (hleft : (Value.membersOutline
      (List.zipWith (fun slot value => (slot.key, value)) todo held)).Torn left) :
    readMembers body slots depth seen left = .error .truncated := by
  induction h generalizing seen left with
  | nil =>
    cases hleft with
    | gone => rfl
  | @cons slot value todo held hvalue hrest ih =>
    obtain ⟨hslot, hmore⟩ := List.forall_mem_cons.1 hslots
    obtain ⟨hnone, hfresher⟩ := List.forall_mem_cons.1 hfresh
    obtain ⟨hother, htodo⟩ := List.nodup_cons.1 htodo
    have hclaim := claim_of_fresh hkeys hslot hnone
    rw [List.zipWith_cons_cons] at hleft
    cases value with
    | none => exact ih htodo hmore hfresher hleft
    | some v =>
      have hv := hvalue v rfl
      rw [Value.membersOutline] at hleft
      generalize houtline : v.outline = value at hleft
      cases hleft with
      | gone | unnamed => rfl
      | key h =>
        obtain rfl := h rfl
        rfl
      | bare => rw [readMembers, hclaim]
      | value _ htorn rest rest' =>
        rw [readMembers_filled hclaim, hv.torn (houtline ▸ htorn)]
        rfl
      | number _ hn rest =>
        obtain ⟨held', hheld⟩ := hv.shortened houtline hn
        rw [readMembers_filled hclaim, hheld]
        rfl
      | rest _ _ htorn =>
        have hstill : ∀ other ∈ todo, ((slot.key, some v) :: seen).lookup other.key = none := by
          intro other hmem
          have hne : other.key ≠ slot.key := by
            intro hsame
            exact hother (List.mem_map.2 ⟨other, hmem, hsame⟩)
          rw [lookup_cons_of_ne hne, hfresher other hmem]
        rw [readMembers_filled hclaim, ← houtline, hv.whole]
        exact ih htodo hmore hstill htorn

theorem readTexts_torn {entries : List (String × String)} {soFar : Keyed String} {left : Members}
    (hleft : (Value.membersOutline (entries.map fun e => (e.1, some (.string e.2)))).Torn left) :
    readTexts soFar left = .error .truncated := by
  induction entries generalizing soFar left with
  | nil =>
    cases hleft with
    | gone => rfl
  | cons entry entries ih =>
    rw [List.map_cons, Value.membersOutline, Value.outline] at hleft
    cases hleft with
    | gone | unnamed | bare => rfl
    | key h =>
      obtain rfl := h rfl
      rfl
    | value _ htorn rest rest' =>
      rcases CutShort.of_string htorn with rfl | ⟨start, ignored, rfl⟩ <;> rfl
    | rest _ _ htorn =>
      rw [readTexts]
      exact ih htorn

theorem readCase_torn {depth : Nat} {cases : List (String × Option (Format κ))} {key : List Char}
    {name : String} {f : Format κ} {v : Value} (hcase : caseOf cases (some key) = .ok (name, some f))
    (hv : ReadWhole body f depth v) {left : Members}
    (hleft : (Members.member (some key) v.outline .close).Torn left) :
    readCase body cases depth left = .error .truncated := by
  generalize hvalue : v.outline = value at hleft
  cases hleft with
  | gone | unnamed => rfl
  | key h =>
    obtain rfl := h rfl
    rfl
  | bare => rw [readCase, hcase]
  | value _ htorn rest rest' => simp only [readCase, hcase, hv.torn (hvalue ▸ htorn)]
  | number _ hn rest =>
    obtain ⟨w, hw⟩ := hv.shortened hvalue hn
    simp only [readCase, hcase, hw]
    rfl
  | rest _ _ hrest =>
    cases hrest with
    | gone =>
      simp only [readCase, hcase, ← hvalue, hv.whole]
      rfl

/-! ### Arrays and objects -/

theorem refusedTorn_texts (depth : Nat) (entries : List (String × String)) :
    RefusedTorn body .texts (depth + 1) (.object (entries.map fun e => (e.1, some (.string e.2)))) where
  torn ho := by
    rw [Value.outline] at ho
    generalize hmembers : Value.membersOutline _ = members at ho
    cases ho with
    | gone => exact read_gone _ _
    | opened => rfl
    | object h =>
      rw [read_texts, readTexts_torn (hmembers ▸ h)]
      rfl
  shortened hv := by cases hv

theorem refusedTorn_list {item : Format κ} {items : List Value} {depth : Nat}
    (hitems : ∀ v ∈ items, ReadWhole body item depth v) :
    RefusedTorn body (.list item) (depth + 1) (.array items) where
  torn ho := by
    rw [Value.outline] at ho
    cases ho with
    | gone => exact read_gone _ _
    | array h =>
      rw [read_list, readItems_torn hitems h]
      rfl
  shortened hv := by cases hv

theorem refusedTorn_pair {first second : Format κ} {v w : Value} {depth : Nat}
    (hv : v ≠ .null ∧ ReadWhole body first depth v) (hw : w ≠ .null ∧ ReadWhole body second depth w) :
    RefusedTorn body (.pair first second) (depth + 1) (.array [v, w]) where
  torn ho := by
    rw [Value.outline] at ho
    cases ho with
    | gone => exact read_gone _ _
    | array h =>
      rw [read_pair, readRow_torn (.cons ⟨hv.1, hv.2⟩ (.cons ⟨hw.1, hw.2⟩ .nil)) h]
      rfl
  shortened hv := by cases hv

theorem refusedTorn_record {name : κ} {slots : List (Slot κ)} {held : List (Option Value)} {depth : Nat}
    (hbody : body name = .record slots) (hkeys : (slots.map (·.key)).Nodup)
    (hheld : List.Forall₂ (fun slot value => ∀ v, value = some v → HeldWhole body slot depth v)
      slots held) :
    RefusedTorn body (.named name) (depth + 1) (recordValue slots held) where
  torn ho := by
    rw [recordValue, Value.outline] at ho
    generalize hmembers : Value.membersOutline _ = members at ho
    cases ho with
    | gone => exact read_gone _ _
    | opened =>
      rw [read_record hbody]
      rfl
    | object h =>
      have htorn := hmembers ▸ h
      rw [read_record hbody, readMembers_torn hheld hkeys hkeys (fun _ hmem => hmem) (fun _ _ => rfl) htorn]
      rfl
  shortened hv := by cases hv

theorem refusedTorn_bare {name : κ} {cases : List (String × Option (Format κ))} (depth : Nat) (key : String)
    (hbody : body name = .choice cases) : RefusedTorn body (.named name) depth (.string key) where
  torn ho := by
    rw [Value.outline] at ho
    cases ho with
    | gone => exact read_gone _ _
    | string h =>
      obtain rfl := h rfl
      simp only [read, readLeaf, hbody, readBareCase]
  shortened hv := by cases hv

theorem refusedTorn_case {name : κ} {cases : List (String × Option (Format κ))} {key : String}
    {f : Format κ}
    {v : Value} {depth : Nat} (hbody : body name = .choice cases)
    (hcase : (cases.find? fun c => c.1 = key) = some (key, some f)) (hv : ReadWhole body f depth v) :
    RefusedTorn body (.named name) (depth + 1) (.object [(key, some v)]) where
  torn ho := by
    rw [Value.outline] at ho
    cases ho with
    | gone => exact read_gone _ _
    | object h =>
      rw [read_choice hbody]
      exact readCase_torn (caseOf_eq_ok hcase) hv h
  shortened hv := by cases hv

/-! ### All formats -/

theorem le_itemsNesting {items : List Value} {v : Value} (hv : v ∈ items) :
    v.nesting ≤ Value.itemsNesting items := by
  induction items with
  | nil => cases hv
  | cons w items ih =>
    rw [Value.itemsNesting]
    rcases List.mem_cons.1 hv with rfl | hmem
    · exact Nat.le_max_left ..
    · exact Nat.le_trans (ih hmem) (Nat.le_max_right ..)

theorem le_membersNesting {members : List (String × Option Value)} {key : String} {v : Value}
    (hv : (key, some v) ∈ members) : v.nesting ≤ Value.membersNesting members := by
  induction members with
  | nil => cases hv
  | cons m members ih =>
    rcases List.mem_cons.1 hv with rfl | hmem
    · rw [Value.membersNesting]
      exact Nat.le_max_left ..
    · obtain ⟨other, held⟩ := m
      cases held with
      | none => exact ih hmem
      | some w =>
        rw [Value.membersNesting]
        exact Nat.le_trans (ih hmem) (Nat.le_max_right ..)

/-- An array or object needs room for one level more than what it holds. -/
theorem depth_of_nesting {n depth : Nat} (h : n + 1 ≤ depth) : ∃ inner, depth = inner + 1 ∧ n ≤ inner :=
  ⟨depth - 1, by omega, by omega⟩

theorem Fits.readWhole_of_refusedTorn {f : Format κ} {v : Value} {depth : Nat} (h : Fits body f v)
    (hv : v.Sound) (hdepth : v.nesting ≤ depth) (htorn : RefusedTorn body f depth v) :
    ReadWhole body f depth v :=
  ⟨htorn, (h.reads_back hv depth).trans (limited_of_le hdepth v)⟩

/-- What is left of a value that fits a format is refused as cut short. -/
theorem Fits.refusedTorn (hzero : ∀ name, (body name).AllowsZero) {f : Format κ} {v : Value}
    (h : Fits body f v) (hf : f.AllowsZero) (hv : v.Sound) {depth : Nat} (hdepth : v.nesting ≤ depth) :
    RefusedTorn body f depth v := by
  induction h generalizing depth with
  | text s => exact refusedTorn_text depth s
  | flag b => exact refusedTorn_flag depth b
  | integer hlow hhigh hsigned hunsigned => exact refusedTorn_integer depth hlow hhigh hsigned hunsigned hf
  | double x => exact refusedTorn_double depth hv.double
  | texts m =>
    obtain ⟨depth, rfl, -⟩ := depth_of_nesting hdepth
    exact refusedTorn_texts depth m.entries
  | @list item items hitems ih =>
    obtain ⟨depth, rfl, hinner⟩ := depth_of_nesting hdepth
    refine refusedTorn_list fun v hmem => ?_
    have hflat := Nat.le_trans (le_itemsNesting hmem) hinner
    exact (hitems v hmem).readWhole_of_refusedTorn (hv.item v hmem) hflat
      (ih v hmem hf (hv.item v hmem) hflat)
  | @pair first second v w hfirst hsecond ihFirst ihSecond =>
    obtain ⟨depth, rfl, hinner⟩ := depth_of_nesting hdepth
    have hmem : v ∈ [v, w] := List.mem_cons_self
    have hmem' : w ∈ [v, w] := List.mem_cons_of_mem _ List.mem_cons_self
    have hflat := Nat.le_trans (le_itemsNesting hmem) hinner
    have hflat' := Nat.le_trans (le_itemsNesting hmem') hinner
    have htorn := ihFirst hf.1 (hv.item v hmem) hflat
    have htorn' := ihSecond hf.2 (hv.item w hmem') hflat'
    exact refusedTorn_pair
      ⟨hfirst.ne_null, hfirst.readWhole_of_refusedTorn (hv.item v hmem) hflat htorn⟩
      ⟨hsecond.ne_null, hsecond.readWhole_of_refusedTorn (hv.item w hmem') hflat' htorn'⟩
  | @record name slots held hbody hkeys hlength habsent hheld ih =>
    obtain ⟨depth, rfl, hinner⟩ := depth_of_nesting hdepth
    have hslots := hzero name
    rw [hbody] at hslots
    refine refusedTorn_record hbody hkeys
      (List.forall₂_iff_zip.2 ⟨hlength, fun {slot value} hmem v hvalue => ?_⟩)
    have hmember : (slot.key, some v) ∈ List.zipWith (fun slot value => (slot.key, value)) slots held := by
      rw [← List.map_uncurry_zip_eq_zipWith, ← hvalue]
      exact List.mem_map_of_mem hmem
    have hfits := hheld _ hmem v hvalue
    have hsound := hv.member _ hmember v rfl
    have hflat := Nat.le_trans (le_membersNesting hmember) hinner
    have htorn := ih _ hmem v hvalue (hslots slot (List.of_mem_zip hmem).1) hsound hflat
    exact ⟨hfits.ne_null, hfits.readWhole_of_refusedTorn hsound hflat htorn⟩
  | @bare name cases key hbody hcase => exact refusedTorn_bare depth key hbody
  | @case name cases key f v hbody hcase hfits ih =>
    obtain ⟨depth, rfl, hinner⟩ := depth_of_nesting hdepth
    have hcases := hzero name
    rw [hbody] at hcases
    have hsound := hv.member _ List.mem_cons_self v rfl
    have hflat := Nat.le_trans (le_membersNesting List.mem_cons_self) hinner
    have htorn := ih (hcases _ (List.mem_of_find?_eq_some hcase) f rfl) hsound hflat
    exact refusedTorn_case hbody hcase (hfits.readWhole_of_refusedTorn hsound hflat htorn)

end IdlGen.Json
