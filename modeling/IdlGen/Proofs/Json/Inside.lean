import IdlGen.Proofs.Json.Parts

/-!
# Parts inside a document

What stands in front of a part is read before it, and what has been read there decides how reading goes
on behind it, whatever stands there. So reading a whole is reading any part that has a format of its own
and going on with what that gives (`Exchanges.read_part`): with another part in its place, the whole is read
if that part gives the same, and refused as that part is.
-/

namespace IdlGen.Json

variable {κ : Type}

/-- Items with others in front of them. -/
def Items.behind (before : List Outline) (rest : Items) : Items := before.foldr .item rest

/-- Members with others in front of them. -/
def Members.behind (before : List (Option (List Char) × Outline)) (rest : Members) : Members :=
  before.foldr (fun m rest => .member m.1 m.2 rest) rest

/-- The slots that an array fills, if the format asks for so many items. -/
inductive RowOf (body : κ → Body κ) : Format κ → List (Slot κ) → Prop
  | pair (first second : Format κ) :
      RowOf body (.pair first second) [⟨"", first, .required⟩, ⟨"", second, .required⟩]
  | record {name : κ} {slots : List (Slot κ)} (hbody : body name = .record slots) :
      RowOf body (.named name) slots

theorem Members.behind_append (before more : List (Option (List Char) × Outline)) (rest : Members) :
    behind (before ++ more) rest = behind before (behind more rest) := List.foldr_append

variable {body : κ → Body κ} {depth : Nat}

/-! ### Behind other parts -/

theorem readItems_behind {f : Format κ} (before : List Outline) {rest : Items} {vs : List Value}
    (h : readItems body f depth (.behind before rest) = .ok vs) :
    ∃ us ws, us.length = before.length ∧ readItems body f depth rest = .ok ws ∧ us ++ ws = vs ∧
      ∀ other, readItems body f depth (.behind before other) =
        (readItems body f depth other).map (us ++ ·) := by
  induction before generalizing vs with
  | nil => exact ⟨[], vs, rfl, h, rfl, fun other => (congrFun Except.map_id _).symm⟩
  | cons value before ih =>
    obtain ⟨v, vs', hv, hvs', rfl⟩ := readItems_item_eq_ok_iff.1 h
    obtain ⟨us, ws, hlength, hws, rfl, hback⟩ := ih hvs'
    refine ⟨v :: us, ws, congrArg (· + 1) hlength, hws, rfl, fun other => (readItems_item f depth value _).trans ?_⟩
    rw [hv, ← Items.behind, hback other]
    cases readItems body f depth other <;> rfl

theorem readRow_behind {slots : List (Slot κ)} (before : List Outline) {rest : Items}
    {held : List (Option Value)} (h : readRow body slots depth (.behind before rest) = .ok held) :
    ∃ us ws, us.length = before.length ∧ readRow body (slots.drop before.length) depth rest = .ok ws ∧
      us ++ ws = held ∧
      ∀ other, readRow body slots depth (.behind before other) =
        (readRow body (slots.drop before.length) depth other).map (us ++ ·) := by
  induction before generalizing slots held with
  | nil => exact ⟨[], held, rfl, h, rfl, fun other => (congrFun Except.map_id _).symm⟩
  | cons value before ih =>
    cases slots with
    | nil => cases h
    | cons slot slots =>
      obtain ⟨v, held', hv, hheld', rfl⟩ := readRow_item_eq_ok_iff.1 h
      obtain ⟨us, ws, hlength, hws, rfl, hback⟩ := ih hheld'
      refine ⟨v :: us, ws, congrArg (· + 1) hlength, hws, rfl, fun other => (readRow_item slot slots depth value _).trans ?_⟩
      rw [hv, ← Items.behind, hback other, List.length_cons, List.drop_succ_cons]
      cases readRow body (slots.drop before.length) depth other <;> rfl

/-- What has been seen of a record once all these members have been read. -/
inductive NotesAll (body : κ → Body κ) (slots : List (Slot κ)) (depth : Nat) :
    List (String × Option Value) → List (Option (List Char) × Outline) → List (String × Option Value) → Prop
  | nil (seen : List (String × Option Value)) : NotesAll body slots depth seen [] seen
  | cons {seen between after : List (String × Option Value)} {m : Option (List Char) × Outline}
      {members : List (Option (List Char) × Outline)} (hfirst : Notes body slots depth seen m.1 m.2 between)
      (hmore : NotesAll body slots depth between members after) :
      NotesAll body slots depth seen (m :: members) after

/-- What a slot has been filled with stays. -/
theorem Notes.keeps {slots : List (Slot κ)} {seen after : List (String × Option Value)}
    {key : Option (List Char)} {value : Outline} (h : Notes body slots depth seen key value after)
    {other : String} {held : Option Value} (hseen : seen.lookup other = some held) :
    after.lookup other = some held := by
  cases h with
  | passed hkey hvalue => exact hseen
  | @filled _ _ slot _ hkey hfresh hvalue =>
    have hother : other ≠ slot.key := by
      rintro rfl
      rw [hfresh] at hseen
      cases hseen
    rwa [lookup_cons_of_ne hother]

theorem NotesAll.keeps {slots : List (Slot κ)} {seen after : List (String × Option Value)}
    {members : List (Option (List Char) × Outline)} (h : NotesAll body slots depth seen members after)
    {other : String} {held : Option Value} (hseen : seen.lookup other = some held) :
    after.lookup other = some held := by
  induction h with
  | nil => exact hseen
  | cons hfirst hmore ih => exact ih (hfirst.keeps hseen)

theorem NotesAll.readMembers {slots : List (Slot κ)} {seen after : List (String × Option Value)}
    {members : List (Option (List Char) × Outline)} (h : NotesAll body slots depth seen members after)
    (rest : Members) :
    readMembers body slots depth seen (.behind members rest) = readMembers body slots depth after rest := by
  induction h with
  | nil => rfl
  | cons hfirst hmore ih => exact (hfirst.readMembers _).trans ih

/-- A record is read by reading its members one after the other and settling what they have left. -/
theorem exists_notesAll {slots : List (Slot κ)} {held : List (Option Value)} :
    (rest : Members) → ∀ {seen : List (String × Option Value)},
      readMembers body slots depth seen rest = .ok held →
        ∃ members after, rest = .behind members .close ∧ NotesAll body slots depth seen members after ∧
          settleAll slots after = .ok held
  | .close, seen, h => ⟨[], seen, rfl, .nil seen, h⟩
  | .member key value rest, seen, h => by
    obtain ⟨between, hfirst, hrest⟩ := readMembers_member_eq_ok_iff.1 h
    obtain ⟨members, after, rfl, hmore, hafter⟩ := exists_notesAll rest hrest
    exact ⟨(key, value) :: members, after, rfl, .cons hfirst hmore, hafter⟩
  | .bare key fault, seen, h => by
    unfold readMembers at h
    split at h <;> cases h
  | .stray found, _, h | .cut fault, _, h => by cases h

theorem readMembers_behind {slots : List (Slot κ)} {seen : List (String × Option Value)}
    (before : List (Option (List Char) × Outline)) {rest : Members} {held : List (Option Value)}
    (h : readMembers body slots depth seen (.behind before rest) = .ok held) :
    ∃ after, NotesAll body slots depth seen before after ∧
      readMembers body slots depth after rest = .ok held := by
  induction before generalizing seen with
  | nil => exact ⟨seen, .nil seen, h⟩
  | cons m before ih =>
    obtain ⟨between, hfirst, hrest⟩ := readMembers_member_eq_ok_iff.1 h
    obtain ⟨after, hmore, hrest⟩ := ih hrest
    exact ⟨after, .cons hfirst hmore, hrest⟩

/-! ### Slots filled otherwise -/

/-- The same keys have been seen, whatever they hold. -/
def SameKeys (seen seen' : List (String × Option Value)) : Prop :=
  ∀ key, seen.lookup key = none ↔ seen'.lookup key = none

section SameKeys

variable {slots : List (Slot κ)} {seen seen' after : List (String × Option Value)}

theorem SameKeys.cons (h : SameKeys seen seen') (key : String) (value held : Option Value) :
    SameKeys ((key, value) :: seen) ((key, held) :: seen') := by
  intro other
  by_cases hother : other = key
  · subst hother
    simp
  · rw [lookup_cons_of_ne hother, lookup_cons_of_ne hother]
    exact h other

theorem Notes.sameKeys {key : Option (List Char)} {value : Outline}
    (h : Notes body slots depth seen key value after) (hkeys : SameKeys seen seen') :
    ∃ after', Notes body slots depth seen' key value after' ∧ SameKeys after after' := by
  cases h with
  | passed hkey hvalue => exact ⟨seen', .passed hkey hvalue, hkeys⟩
  | filled hkey hfresh hvalue =>
    exact ⟨_, .filled hkey ((hkeys _).1 hfresh) hvalue, hkeys.cons _ _ _⟩

theorem NotesAll.sameKeys {members : List (Option (List Char) × Outline)}
    (h : NotesAll body slots depth seen members after) (hkeys : SameKeys seen seen') :
    ∃ after', NotesAll body slots depth seen' members after' ∧ SameKeys after after' := by
  induction h generalizing seen' with
  | nil => exact ⟨seen', .nil seen', hkeys⟩
  | cons hfirst hmore ih =>
    obtain ⟨between', hfirst', hbetween⟩ := hfirst.sameKeys hkeys
    obtain ⟨after', hmore', hafter⟩ := ih hbetween
    exact ⟨after', .cons hfirst' hmore', hafter⟩

theorem settleAll_sameKeys {held : List (Option Value)} (h : settleAll slots seen = .ok held)
    (hkeys : SameKeys seen seen') : ∃ held', settleAll slots seen' = .ok held' := by
  refine exists_mapM_eq_ok_iff.2 fun slot hslot => ?_
  obtain ⟨value, hvalue⟩ := exists_mapM_eq_ok_iff.1 ⟨held, h⟩ slot hslot
  cases hseen : seen'.lookup slot.key with
  | some v => exact ⟨v, rfl⟩
  | none =>
    rw [(hkeys _).2 hseen] at hvalue
    exact ⟨value, hvalue⟩

/-- Whether a record is read does not depend on what its slots have been filled with so far. -/
theorem readMembers_sameKeys {rest : Members} {held : List (Option Value)}
    (h : readMembers body slots depth seen rest = .ok held) (hkeys : SameKeys seen seen') :
    ∃ held', readMembers body slots depth seen' rest = .ok held' := by
  obtain ⟨members, after, rfl, hnotes, hafter⟩ := exists_notesAll rest h
  obtain ⟨after', hnotes', hkeys'⟩ := hnotes.sameKeys hkeys
  rw [hnotes'.readMembers]
  exact settleAll_sameKeys hafter hkeys'

end SameKeys

/-! ### Around a part -/

theorem readSlot_of_null? {slot : Slot κ} {value : Outline} (h : slot.presence.null? value = none) :
    readSlot body slot depth value = (read body slot.format depth value).map some := by
  rw [readSlot, h]

/-- What the items of a row make. -/
def rowValue : (f : Format κ) → List (Slot κ) → List (Option Value) → Value
  | .pair _ _, _, held => .array (held.filterMap id)
  | _, slots, held => recordValue slots held

theorem read_row {f : Format κ} {slots : List (Slot κ)} (hrow : RowOf body f slots) (depth : Nat)
    (items : Items) :
    read body f (depth + 1) (.array items) = (readRow body slots depth items).map (rowValue f slots) := by
  cases hrow with
  | pair first second => exact read_pair first second depth items
  | record hbody => simp only [read, hbody]; rfl

/-- Without room for one more level no array and no object is read. -/
theorem read_zero_array (f : Format κ) (items : Items) (v : Value) :
    read body f 0 (.array items) ≠ .ok v := by
  intro h
  unfold read at h
  split at h
  · cases h
  · cases h
  · split at h <;> cases h
  · cases h

theorem read_zero_object (f : Format κ) (members : Members) (v : Value) :
    read body f 0 (.object members) ≠ .ok v := by
  intro h
  unfold read at h
  split at h <;> cases h

theorem endChoice_total {v w : Value} {rest : Members} (h : endChoice v rest = .ok w) (v' : Value) :
    ∃ w', endChoice v' rest = .ok w' := by
  cases rest with
  | close => exact ⟨v', rfl⟩
  | member key value rest | bare key fault | stray found | cut fault => cases h

/-- Where the first format is asked for, the second outline is the first one with another part in the place
of one for which the second format is asked. -/
inductive Exchanges (body : κ → Body κ) (part part' : Outline) :
    Format κ → Format κ → Outline → Outline → Prop
  | member {name : κ} {slots : List (Slot κ)} {slot : Slot κ} (hbody : body name = .record slots)
      (before : List (Option (List Char) × Outline)) {key : List Char}
      (hslot : (slots.find? fun slot => slot.key = String.ofList key) = some slot) (rest : Members) :
      Exchanges body part part' (.named name) slot.format
        (.object (.behind before (.member (some key) part rest)))
        (.object (.behind before (.member (some key) part' rest)))
  | item (f : Format κ) (before : List Outline) (rest : Items) :
      Exchanges body part part' (.list f) f (.array (.behind before (.item part rest)))
        (.array (.behind before (.item part' rest)))
  | row {f : Format κ} {slots : List (Slot κ)} {slot : Slot κ} (hrow : RowOf body f slots)
      (before : List Outline) (hslot : slots[before.length]? = some slot) (rest : Items) :
      Exchanges body part part' f slot.format (.array (.behind before (.item part rest)))
        (.array (.behind before (.item part' rest)))
  | case {name : κ} {cases : List (String × Option (Format κ))} {case : String} {f : Format κ}
      (hbody : body name = .choice cases) {key : List Char}
      (hcase : (cases.find? fun c => c.1 = String.ofList key) = some (case, some f)) (rest : Members) :
      Exchanges body part part' (.named name) f (.object (.member (some key) part rest))
        (.object (.member (some key) part' rest))

section Results

variable {part part' o o' : Outline} {f g : Format κ} {depth : Nat} {v : Value}

/-- A whole is read by reading the part and going on, which succeeds whatever the part has given. Null is no
such part, since a slot may hold it without reading. -/
theorem Exchanges.read_part (h : Exchanges body part part' f g o o')
    (hnull : ∀ presence : Presence, presence.null? part = none ∧ presence.null? part' = none)
    (hv : read body f depth o = .ok v) :
    ∃ depth' w, ∃ next : Value → Except Fault Value, read body g depth' part = .ok w ∧ next w = .ok v ∧
      (∀ w', ∃ v', next w' = .ok v') ∧ read body f depth o' = read body g depth' part' >>= next := by
  cases h with
  | @member name slots slot hbody before key hslot rest =>
    cases depth with
    | zero => exact absurd hv (read_zero_object _ _ v)
    | succ depth =>
      rw [read_record hbody] at hv ⊢
      obtain ⟨vs, hvs, rfl⟩ := map_eq_ok.1 hv
      obtain ⟨seen, hbefore, hmember⟩ := readMembers_behind before hvs
      obtain ⟨after, hnotes, hrest⟩ := readMembers_member_eq_ok_iff.1 hmember
      cases hnotes with
      | passed hkey => rw [hkey] at hslot; cases hslot
      | @filled _ _ slot' _ hkey hfresh hvalue =>
        obtain rfl : slot = slot' := Option.some.inj (hslot.symm.trans hkey)
        rw [readSlot_of_null? (hnull _).1] at hvalue
        obtain ⟨w, hw, rfl⟩ := map_eq_ok.1 hvalue
        have hclaim : claim slots seen (some key) = .ok (some slot) :=
          claim_eq_ok_iff.2 ⟨key, rfl, hkey, fun other hother => Option.some.inj hother ▸ hfresh⟩
        refine ⟨depth, w, fun w => (readMembers body slots depth ((slot.key, some w) :: seen) rest).map
          (recordValue slots), hw, map_eq_ok.2 ⟨vs, hrest, rfl⟩, fun w' => ?_, ?_⟩
        · have hkeys : SameKeys ((slot.key, some w) :: seen) ((slot.key, some w') :: seen) :=
            SameKeys.cons (fun _ => Iff.rfl) slot.key (some w) (some w')
          obtain ⟨held, hheld⟩ := readMembers_sameKeys hrest hkeys
          exact ⟨_, map_eq_ok.2 ⟨held, hheld, rfl⟩⟩
        rw [hbefore.readMembers, readMembers_filled hclaim, readSlot_of_null? (hnull _).2]
        cases read body slot.format depth part' <;> rfl
  | item _ before rest =>
    cases depth with
    | zero => exact absurd hv (read_zero_array _ _ v)
    | succ depth =>
      rw [read_list] at hv ⊢
      obtain ⟨vs, hvs, rfl⟩ := map_eq_ok.1 hv
      obtain ⟨us, ws, -, hws, rfl, hback⟩ := readItems_behind before hvs
      obtain ⟨w, ws', hw, hws', rfl⟩ := readItems_item_eq_ok_iff.1 hws
      refine ⟨depth, w, fun w => .ok (.array (us ++ w :: ws')), hw, rfl, fun w' => ⟨_, rfl⟩, ?_⟩
      rw [hback, readItems_item, hws']
      cases read body g depth part' <;> rfl
  | @row _ slots slot hrow before hslot rest =>
    cases depth with
    | zero => exact absurd hv (read_zero_array _ _ v)
    | succ depth =>
      rw [read_row hrow] at hv ⊢
      obtain ⟨vs, hvs, rfl⟩ := map_eq_ok.1 hv
      obtain ⟨us, ws, -, hws, rfl, hback⟩ := readRow_behind before hvs
      obtain ⟨hlength, rfl⟩ := List.getElem?_eq_some_iff.1 hslot
      rw [List.drop_eq_getElem_cons hlength] at hws hback
      obtain ⟨w, ws', hw, hws', rfl⟩ := readRow_item_eq_ok_iff.1 hws
      rw [readSlot_of_null? (hnull _).1] at hw
      obtain ⟨w, hpartw, rfl⟩ := map_eq_ok.1 hw
      refine ⟨depth, w, fun w => .ok (rowValue f slots (us ++ some w :: ws')), hpartw, rfl,
        fun w' => ⟨_, rfl⟩, ?_⟩
      rw [hback, readRow_item, hws', readSlot_of_null? (hnull _).2]
      cases read body slots[before.length].format depth part' <;> rfl
  | @case _ cases case _ hbody key hcase rest =>
    cases depth with
    | zero => exact absurd hv (read_zero_object _ _ v)
    | succ depth =>
      rw [read_choice hbody] at hv ⊢
      simp only [readCase, caseOf, hcase] at hv ⊢
      split at hv
      · rename_i w hw
        refine ⟨depth, w, fun w => endChoice (.object [(case, some w)]) rest, hw, hv,
          fun w' => endChoice_total hv _, ?_⟩
        cases read body g depth part' <;> rfl
      · cases hv

theorem Exchanges.read_same (h : Exchanges body part part' f g o o')
    (hnull : ∀ presence : Presence, presence.null? part = none ∧ presence.null? part' = none)
    (hpart : ∀ depth w, read body g depth part = .ok w → read body g depth part' = .ok w)
    (hv : read body f depth o = .ok v) : read body f depth o' = .ok v := by
  obtain ⟨depth', w, next, hw, hnext, -, heq⟩ := h.read_part hnull hv
  rw [heq, hpart depth' w hw]
  exact hnext

theorem Exchanges.read_refused (h : Exchanges body part part' f g o o')
    (hnull : ∀ presence : Presence, presence.null? part = none ∧ presence.null? part' = none) {fault : Fault}
    (hpart : ∀ depth w, read body g depth part = .ok w → read body g depth part' = .error fault)
    (hv : read body f depth o = .ok v) : read body f depth o' = .error fault := by
  obtain ⟨depth', w, next, hw, -, -, heq⟩ := h.read_part hnull hv
  rw [heq, hpart depth' w hw]
  rfl

end Results

end IdlGen.Json
