import IdlGen.Proofs.Except
import IdlGen.Proofs.Json.Outlines
import IdlGen.Proofs.Json.Reading

/-!
# Reading part by part

An array or object is read if its first part is and then the rest is. Of a record it matters what has
been seen before, and a member adds to that if it fills a slot (`Notes`). What is read, or passed over,
is a whole outline.
-/

namespace IdlGen.Json

variable {κ : Type}

/-! ### What is passed over -/

mutual

theorem Outline.skip_eq_ok_iff : (o : Outline) → (o.skip = .ok () ↔ o.Whole)
  | .word w | .number n | .string text => iff_of_true rfl trivial
  | .array items => items.skip_eq_ok_iff
  | .object members => members.skip_eq_ok_iff
  | .broken found => by
    refine iff_of_false ?_ id
    rcases found with _ | _ | _ | _ | _ | ⟨start, wanted, ignored⟩ <;> exact nofun

theorem Items.skip_eq_ok_iff : (items : Items) → (Outline.skipItems items = .ok () ↔ items.Whole)
  | .close => iff_of_true rfl trivial
  | .item value rest => by
    rw [Items.Whole, ← value.skip_eq_ok_iff, ← rest.skip_eq_ok_iff, Outline.skipItems]
    cases value.skip <;> simp
  | .cut fault => iff_of_false (fun h => nomatch h) id

theorem Members.skip_eq_ok_iff :
    (members : Members) → (Outline.skipMembers members = .ok () ↔ members.Whole)
  | .close => iff_of_true rfl trivial
  | .member key value rest => by
    rw [Members.Whole, ← value.skip_eq_ok_iff, ← rest.skip_eq_ok_iff, Outline.skipMembers]
    cases value.skip <;> simp
  | .bare key fault | .cut fault => iff_of_false (fun h => nomatch h) id
  | .stray found => by
    refine iff_of_false ?_ id
    rcases found with _ | _ | _ | _ | _ | ⟨_ | _ | _ | _ | _, wanted, ignored⟩ <;> exact nofun

end

/-! ### One item or member at a time -/

variable {body : κ → Body κ}

/-- What a slot holds that is given this. -/
def readSlot (body : κ → Body κ) (slot : Slot κ) (depth : Nat) (value : Outline) :
    Except Fault (Option Value) :=
  match slot.presence.null? value with
  | some held => held
  | none => (read body slot.format depth value).map some

/-- What has been seen of a record once a member has been read: more, if the member fills a slot. -/
inductive Notes (body : κ → Body κ) (slots : List (Slot κ)) (depth : Nat)
    (seen : List (String × Option Value)) :
    Option (List Char) → Outline → List (String × Option Value) → Prop
  | passed {key : List Char} {value : Outline}
      (hkey : (slots.find? fun slot => slot.key = String.ofList key) = none) (hvalue : value.Whole) :
      Notes body slots depth seen (some key) value seen
  | filled {key : List Char} {value : Outline} {slot : Slot κ} {held : Option Value}
      (hkey : (slots.find? fun slot => slot.key = String.ofList key) = some slot)
      (hfresh : seen.lookup slot.key = none) (hvalue : readSlot body slot depth value = .ok held) :
      Notes body slots depth seen (some key) value ((slot.key, held) :: seen)

theorem claim_eq_ok_iff {slots : List (Slot κ)} {seen : List (String × Option Value)}
    {key : Option (List Char)} {found : Option (Slot κ)} : claim slots seen key = .ok found ↔
      ∃ name, key = some name ∧ (slots.find? fun slot => slot.key = String.ofList name) = found ∧
        ∀ slot, found = some slot → seen.lookup slot.key = none := by
  cases key with
  | none =>
    constructor
    · intro h
      cases h
    · rintro ⟨name, hname, -⟩
      cases hname
  | some name =>
    rw [claim]
    cases hfind : slots.find? fun slot => slot.key = String.ofList name with
    | none =>
      constructor
      · intro h
        obtain rfl := Except.ok.inj h
        refine ⟨name, rfl, hfind, fun slot hslot => ?_⟩
        cases hslot
      · rintro ⟨other, hname, hother, -⟩
        obtain rfl := Option.some.inj hname
        rw [← hother, hfind]
    | some slot =>
      dsimp only
      constructor
      · intro h
        split at h
        · cases h
        · rename_i hseen
          obtain rfl := Except.ok.inj h
          refine ⟨name, rfl, hfind, fun other hother => ?_⟩
          obtain rfl := Option.some.inj hother
          rwa [Bool.not_eq_true, Option.isSome_eq_false_iff, Option.isNone_iff_eq_none] at hseen
      · rintro ⟨other, hname, hother, hfresh⟩
        obtain rfl := Option.some.inj hname
        rw [hfind] at hother
        rw [← hother, hfresh slot hother.symm]
        rfl

section Members

variable {slots : List (Slot κ)} {depth : Nat} {seen : List (String × Option Value)}
  {key : Option (List Char)}

/-- A member whose key is refused is not read. -/
theorem readMembers_refused {fault : Fault} (hclaim : claim slots seen key = .error fault) (value : Outline)
    (rest : Members) : readMembers body slots depth seen (.member key value rest) = .error fault := by
  rw [readMembers, hclaim]

theorem readMembers_passed (hclaim : claim slots seen key = .ok none) (value : Outline) (rest : Members) :
    readMembers body slots depth seen (.member key value rest) =
      value.skip >>= fun _ => readMembers body slots depth seen rest := by
  rw [readMembers, hclaim]
  cases value.skip <;> rfl

theorem readMembers_filled {slot : Slot κ} (hclaim : claim slots seen key = .ok (some slot))
    (value : Outline) (rest : Members) :
    readMembers body slots depth seen (.member key value rest) =
      readSlot body slot depth value >>= fun held =>
        readMembers body slots depth ((slot.key, held) :: seen) rest := by
  simp only [readMembers, hclaim, readSlot]
  cases slot.presence.null? value with
  | none => cases read body slot.format depth value <;> rfl
  | some held => cases held <;> rfl

/-- Behind a member that is noted the rest is read. -/
theorem Notes.readMembers {value : Outline} {seen' : List (String × Option Value)}
    (h : Notes body slots depth seen key value seen') (rest : Members) :
    readMembers body slots depth seen (.member key value rest) = readMembers body slots depth seen' rest := by
  cases h with
  | @passed name _ hkey hvalue =>
    have hclaim : claim slots seen (some name) = .ok none := by simp only [claim, hkey]
    rw [readMembers_passed hclaim, value.skip_eq_ok_iff.2 hvalue]
    rfl
  | @filled name _ slot v hkey hfresh hvalue =>
    have hclaim : claim slots seen (some name) = .ok (some slot) := by
      simp only [claim, hkey, hfresh, Option.isSome_none, Bool.false_eq_true, if_false]
    rw [readMembers_filled hclaim, hvalue]
    rfl

theorem readMembers_member_eq_ok_iff {value : Outline} {rest : Members} {held : List (Option Value)} :
    readMembers body slots depth seen (.member key value rest) = .ok held ↔
      ∃ seen', Notes body slots depth seen key value seen' ∧
        readMembers body slots depth seen' rest = .ok held := by
  constructor
  · intro h
    cases hclaim : claim slots seen key with
    | error fault =>
      rw [readMembers_refused hclaim] at h
      cases h
    | ok found =>
      obtain ⟨name, rfl, hkey, hfresh⟩ := claim_eq_ok_iff.1 hclaim
      cases found with
      | none =>
        rw [readMembers_passed hclaim, bind_eq_ok] at h
        obtain ⟨_, hskip, hrest⟩ := h
        exact ⟨seen, .passed hkey (value.skip_eq_ok_iff.1 hskip), hrest⟩
      | some slot =>
        rw [readMembers_filled hclaim, bind_eq_ok] at h
        obtain ⟨v, hvalue, hrest⟩ := h
        exact ⟨_, .filled hkey (hfresh slot rfl) hvalue, hrest⟩
  · rintro ⟨seen', hnotes, hrest⟩
    exact (hnotes.readMembers rest).trans hrest

end Members

theorem readItems_item (f : Format κ) (depth : Nat) (value : Outline) (rest : Items) :
    readItems body f depth (.item value rest) =
      read body f depth value >>= fun v => (readItems body f depth rest).map (v :: ·) := by
  rw [readItems]
  cases read body f depth value <;> rfl

theorem readItems_item_eq_ok_iff {f : Format κ} {depth : Nat} {value : Outline} {rest : Items}
    {vs : List Value} : readItems body f depth (.item value rest) = .ok vs ↔
      ∃ v ws, read body f depth value = .ok v ∧ readItems body f depth rest = .ok ws ∧ v :: ws = vs := by
  simp only [readItems_item, bind_eq_ok, map_eq_ok, exists_and_left]

theorem readRow_item (slot : Slot κ) (slots : List (Slot κ)) (depth : Nat) (value : Outline)
    (rest : Items) : readRow body (slot :: slots) depth (.item value rest) =
      readSlot body slot depth value >>= fun held => (readRow body slots depth rest).map (held :: ·) := by
  rw [readRow, readSlot]
  cases slot.presence.null? value with
  | none => cases read body slot.format depth value <;> rfl
  | some held => cases held <;> rfl

theorem readRow_item_eq_ok_iff {slot : Slot κ} {slots : List (Slot κ)} {depth : Nat} {value : Outline}
    {rest : Items} {held : List (Option Value)} :
    readRow body (slot :: slots) depth (.item value rest) = .ok held ↔
      ∃ v ws, readSlot body slot depth value = .ok v ∧ readRow body slots depth rest = .ok ws ∧
        v :: ws = held := by
  simp only [readRow_item, bind_eq_ok, map_eq_ok, exists_and_left]

theorem readTexts_member_eq_ok_iff {soFar m : Keyed String} {key : Option (List Char)} {value : Outline}
    {rest : Members} :
    readTexts soFar (.member key value rest) = .ok m ↔
      ∃ name text, key = some name ∧ value = .string (some text) ∧
        readTexts (soFar.insert (String.ofList name) (String.ofList text)) rest = .ok m := by
  constructor
  · intro h
    cases key with
    | none => cases h
    | some name =>
      unfold readTexts at h
      split at h
      · exact ⟨name, _, rfl, rfl, h⟩
      · cases h
  · rintro ⟨name, text, rfl, rfl, h⟩
    exact h

/-! ### One level at a time -/

theorem read_texts (depth : Nat) (members : Members) :
    read body .texts (depth + 1) (.object members) =
      (readTexts ∅ members).map fun m => .object (m.entries.map fun e => (e.1, some (.string e.2))) := by
  rw [read]

theorem read_list (item : Format κ) (depth : Nat) (items : Items) :
    read body (.list item) (depth + 1) (.array items) = (readItems body item depth items).map .array := by
  rw [read]

theorem read_pair (first second : Format κ) (depth : Nat) (items : Items) :
    read body (.pair first second) (depth + 1) (.array items) =
      (readRow body [⟨"", first, .required⟩, ⟨"", second, .required⟩] depth items).map
        fun held => .array (held.filterMap id) := by
  rw [read]

/-! ### Whole outlines -/

theorem whole_of_null? {presence : Presence} {value : Outline} {held : Option Value}
    (h : presence.null? value = some (.ok held)) : value.Whole := by
  unfold Presence.null? at h
  split at h
  · exact trivial
  · cases h
  · cases h

theorem whole_of_readSlot {slot : Slot κ} {depth : Nat} {value : Outline} {held : Option Value}
    (hread : ∀ v, read body slot.format depth value = .ok v → value.Whole)
    (h : readSlot body slot depth value = .ok held) : value.Whole := by
  rw [readSlot] at h
  split at h
  · rename_i hnull
    rw [h] at hnull
    exact whole_of_null? hnull
  · obtain ⟨v, hv, -⟩ := map_eq_ok.1 h
    exact hread v hv

theorem whole_of_endChoice {v w : Value} {rest : Members} (h : endChoice v rest = .ok w) : rest.Whole := by
  cases rest with
  | close => exact trivial
  | member key value rest | bare key fault | stray found | cut fault => cases h

theorem whole_of_readTexts {soFar m : Keyed String} :
    (members : Members) → readTexts soFar members = .ok m → members.Whole
  | .close, _ => trivial
  | .member key value rest, h => by
    obtain ⟨name, text, rfl, rfl, hrest⟩ := readTexts_member_eq_ok_iff.1 h
    exact ⟨trivial, whole_of_readTexts rest hrest⟩
  | .bare none fault, h | .bare (some key) fault, h | .stray found, h | .cut fault, h => nomatch h

theorem readBareCase_broken (cases : List (String × Option (Format κ))) (found : Option Token) (v : Value) :
    readBareCase cases (.broken found) ≠ .ok v := by
  intro h
  unfold readBareCase at h
  split at h <;> simp_all

theorem read_broken (f : Format κ) (depth : Nat) (found : Option Token) (v : Value) :
    read body f depth (.broken found) ≠ .ok v := by
  intro h
  rw [read] at h
  cases f with
  | named name =>
    rw [readLeaf] at h
    split at h
    · exact readBareCase_broken _ _ _ h
    · cases h
  | text | flag | integer low high | double | texts | list item | pair first second => cases h

mutual

/-- Only a whole outline can be read. -/
theorem Outline.whole_of_read {f : Format κ} {depth : Nat} {v : Value} :
    (o : Outline) → read body f depth o = .ok v → o.Whole
  | .array items, h => by
    unfold read at h
    split at h
    · split at h
      · cases h
      · obtain ⟨vs, hvs, -⟩ := map_eq_ok.1 h
        exact items.whole_of_readItems hvs
    · split at h
      · cases h
      · obtain ⟨held, hheld, -⟩ := map_eq_ok.1 h
        exact items.whole_of_readRow hheld
    · split at h
      · split at h
        · cases h
        · obtain ⟨held, hheld, -⟩ := map_eq_ok.1 h
          exact items.whole_of_readRow hheld
      · cases h
    · cases h
  | .object members, h => by
    unfold read at h
    split at h
    · split at h
      · cases h
      · obtain ⟨m, hm, -⟩ := map_eq_ok.1 h
        exact whole_of_readTexts members hm
    · split at h
      · cases h
      · split at h
        · obtain ⟨held, hheld, -⟩ := map_eq_ok.1 h
          exact members.whole_of_readMembers hheld
        · exact members.whole_of_readCase h
    · cases h
  | .word w, _ | .number n, _ | .string text, _ => trivial
  | .broken found, h => absurd h (read_broken f depth found v)

theorem Items.whole_of_readItems {f : Format κ} {depth : Nat} {vs : List Value} :
    (items : Items) → readItems body f depth items = .ok vs → items.Whole
  | .close, _ => trivial
  | .item value rest, h => by
    obtain ⟨v, ws, hv, hws, -⟩ := readItems_item_eq_ok_iff.1 h
    exact ⟨value.whole_of_read hv, rest.whole_of_readItems hws⟩
  | .cut fault, h => nomatch h

theorem Items.whole_of_readRow {slots : List (Slot κ)} {depth : Nat} {held : List (Option Value)} :
    (items : Items) → readRow body slots depth items = .ok held → items.Whole
  | .close, _ => trivial
  | .item value rest, h => by
    cases slots with
    | nil => cases h
    | cons slot slots =>
      obtain ⟨v, ws, hv, hws, -⟩ := readRow_item_eq_ok_iff.1 h
      exact ⟨whole_of_readSlot (fun _ => value.whole_of_read) hv, rest.whole_of_readRow hws⟩
  | .cut fault, h => nomatch h

theorem Members.whole_of_readMembers {slots : List (Slot κ)} {depth : Nat}
    {seen : List (String × Option Value)} {held : List (Option Value)} :
    (members : Members) → readMembers body slots depth seen members = .ok held → members.Whole
  | .close, _ => trivial
  | .member key value rest, h => by
    obtain ⟨seen', hnotes, hrest⟩ := readMembers_member_eq_ok_iff.1 h
    refine ⟨?_, rest.whole_of_readMembers hrest⟩
    cases hnotes with
    | passed hkey hvalue => exact hvalue
    | filled hkey hfresh hvalue => exact whole_of_readSlot (fun _ => value.whole_of_read) hvalue
  | .bare key fault, h => by
    unfold readMembers at h
    split at h <;> cases h
  | .stray found, h | .cut fault, h => nomatch h

theorem Members.whole_of_readCase {cases : List (String × Option (Format κ))} {depth : Nat} {v : Value} :
    (members : Members) → readCase body cases depth members = .ok v → members.Whole
  | .close, _ => trivial
  | .member key value rest, h => by
    unfold readCase at h
    split at h
    · cases h
    · split at h
      · exact ⟨trivial, whole_of_endChoice h⟩
      · cases h
    · split at h
      · rename_i w hw
        exact ⟨value.whole_of_read hw, whole_of_endChoice h⟩
      · cases h
  | .bare key fault, h => by
    unfold readCase at h
    split at h <;> cases h
  | .stray found, h | .cut fault, h => nomatch h

end

end IdlGen.Json
