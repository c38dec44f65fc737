import IdlGen.Proofs.Json.Fitting
import IdlGen.Proofs.Json.Inside

/-!
# Positions in documents

A part of a document has arrays and objects around it, and the value that is read of the document holds at
the corresponding place what is read of the part (`Leads.at?_of_read`). Put another part there, and the
document is read if the part is (`Leads.read_iff`).
-/

namespace IdlGen.Json

/-! ### Paths in values -/

/-- Which of the values that a value holds. -/
inductive Branch where
  | member (key : String)
  | item (place : Nat)

namespace Value

def branch? : Value → Branch → Option Value
  | .object members, .member key => (members.lookup key).join
  | .array items, .item place => items[place]?
  | _, _ => none

/-- What a value holds at the end of a path. -/
def at? (v : Value) (path : List Branch) : Option Value := path.foldlM branch? v

end Value

/-! ### Positions in outlines -/

/-- An array or object around one of its parts. -/
inductive Frame where
  | member (before : List (Option (List Char) × Outline)) (key : List Char) (rest : Members)
  | item (before : List Outline) (rest : Items)

def Frame.fill : Frame → Outline → Outline
  | member before key rest, part => .object (.behind before (.member (some key) part rest))
  | item before rest, part => .array (.behind before (.item part rest))

/-- A part with all that is around it, from the outside in. -/
def Outline.within (part : Outline) (frames : List Frame) : Outline := frames.foldr Frame.fill part

variable {κ : Type}

/-- Where the first format is asked for, the frame asks its part for the second one, and the value of the
part comes to stand in that branch of the whole. -/
inductive Frame.Asks (body : κ → Body κ) : Frame → Format κ → Branch → Format κ → Prop
  | member {name : κ} {slots : List (Slot κ)} {slot : Slot κ} (hbody : body name = .record slots)
      (before : List (Option (List Char) × Outline)) {key : List Char}
      (hslot : (slots.find? fun slot => slot.key = String.ofList key) = some slot) (rest : Members) :
      Asks body (.member before key rest) (.named name) (.member slot.key) slot.format
  | item (f : Format κ) (before : List Outline) (rest : Items) :
      Asks body (.item before rest) (.list f) (.item before.length) f
  | first (first second : Format κ) (rest : Items) :
      Asks body (.item [] rest) (.pair first second) (.item 0) first
  | second (first second : Format κ) (before : Outline) (rest : Items) :
      Asks body (.item [before] rest) (.pair first second) (.item 1) second
  | row {name : κ} {slots : List (Slot κ)} {slot : Slot κ} (hbody : body name = .record slots)
      (before : List Outline) (hslot : slots[before.length]? = some slot) (rest : Items) :
      Asks body (.item before rest) (.named name) (.member slot.key) slot.format
  | case {name : κ} {cases : List (String × Option (Format κ))} {case : String} {f : Format κ}
      (hbody : body name = .choice cases) {key : List Char}
      (hcase : (cases.find? fun c => c.1 = String.ofList key) = some (case, some f)) (rest : Members) :
      Asks body (.member [] key rest) (.named name) (.member case) f

/-- The same of a part with many arrays and objects around it. -/
inductive Leads (body : κ → Body κ) : List Frame → Format κ → List Branch → Format κ → Prop
  | here (f : Format κ) : Leads body [] f [] f
  | inside {frame : Frame} {frames : List Frame} {f g target : Format κ} {branch : Branch}
      {path : List Branch} (hframe : frame.Asks body f branch g) (h : Leads body frames g path target) :
      Leads body (frame :: frames) f (branch :: path) target

variable {body : κ → Body κ} {frame : Frame} {frames : List Frame} {f g : Format κ} {branch : Branch}
  {path : List Branch} {part part' : Outline} {depth : Nat} {v : Value}

/-- No slot holds such a part without reading it. -/
def Outline.Present (o : Outline) : Prop := ∀ presence : Presence, presence.null? o = none

theorem Frame.present_fill (frame : Frame) (part : Outline) : (frame.fill part).Present := by
  intro presence
  cases frame <;> cases presence <;> rfl

theorem Outline.Present.within (h : part.Present) (frames : List Frame) : (part.within frames).Present := by
  cases frames with
  | nil => exact h
  | cons frame frames => exact frame.present_fill _

theorem Frame.Asks.exchanges (h : frame.Asks body f branch g) (part part' : Outline) :
    Exchanges body part part' f g (frame.fill part) (frame.fill part') := by
  cases h with
  | member hbody before hslot rest => exact .member hbody before hslot rest
  | item _ before rest => exact .item g before rest
  | first _ other rest => exact .row (.pair g other) [] rfl rest
  | second other _ before rest => exact .row (.pair other g) [before] rfl rest
  | row hbody before hslot rest => exact .row (.record hbody) before hslot rest
  | case hbody hcase rest => exact .case hbody hcase rest

/-! ### Another part -/

/-- Where one part can stand, whatever is read there can. -/
theorem Leads.read_iff (h : Leads body frames f path g) (hpart : part.Present) (hpart' : part'.Present)
    (hv : read body f depth (part.within frames) = .ok v) :
    ∃ depth', (∃ v', read body f depth (part'.within frames) = .ok v') ↔
      ∃ w', read body g depth' part' = .ok w' := by
  induction h generalizing depth v with
  | here f => exact ⟨depth, Iff.rfl⟩
  | @inside frame frames f g target branch path hframe h ih =>
    obtain ⟨depth', w, next, hw, -, htotal, heq⟩ :=
      (hframe.exchanges (part.within frames) (part'.within frames)).read_part
        (fun presence => ⟨hpart.within frames presence, hpart'.within frames presence⟩) hv
    obtain ⟨depth'', hiff⟩ := ih hw
    refine ⟨depth'', ?_⟩
    rw [← hiff]
    change (∃ v', read body f depth (frame.fill (part'.within frames)) = .ok v') ↔ _
    rw [heq]
    constructor
    · rintro ⟨v', hv'⟩
      obtain ⟨w', hw', -⟩ := bind_eq_ok.1 hv'
      exact ⟨w', hw'⟩
    · rintro ⟨w', hw'⟩
      obtain ⟨v', hv'⟩ := htotal w'
      exact ⟨v', bind_eq_ok.2 ⟨w', hw', hv'⟩⟩

/-! ### The place of a part -/

theorem getElem?_behind {α : Type} {front : List α} {n : Nat} (h : front.length = n) (a : α) (rest : List α) :
    (front ++ a :: rest)[n]? = some a := by
  rw [← h, List.getElem?_append_right (Nat.le_refl _), Nat.sub_self]
  rfl

theorem lookup_zipWith {slots : List (Slot κ)} {slot : Slot κ} {held : List (Option Value)}
    {value : Option Value} (hkeys : (slots.map (·.key)).Nodup) (h : (slot, value) ∈ slots.zip held) :
    (List.zipWith (fun slot value => (slot.key, value)) slots held).lookup slot.key = some value := by
  induction slots generalizing held with
  | nil => cases h
  | cons other slots ih =>
    cases held with
    | nil => cases h
    | cons first held =>
      obtain ⟨hfresh, hmore⟩ := List.nodup_cons.1 hkeys
      rw [List.zipWith_cons_cons]
      rcases List.mem_cons.1 h with hfirst | hrest
      · obtain ⟨rfl, rfl⟩ := Prod.mk.inj hfirst
        exact List.lookup_cons_self
      · have hother : slot.key ≠ other.key := by
          intro hsame
          have hmem : slot.key ∈ slots.map (·.key) := List.mem_map_of_mem (List.of_mem_zip hrest).1
          rw [hsame] at hmem
          exact hfresh hmem
        rw [lookup_cons_of_ne hother]
        exact ih hmore hrest

theorem branch?_recordValue {slots : List (Slot κ)} {slot : Slot κ} {held : List (Option Value)} {w : Value}
    (hkeys : (slots.map (·.key)).Nodup) (h : (slot, some w) ∈ slots.zip held) :
    (recordValue slots held).branch? (.member slot.key) = some w := by
  rw [recordValue, Value.branch?, lookup_zipWith hkeys h]
  rfl

theorem mem_zip_settleAll {slots : List (Slot κ)} {slot : Slot κ} {seen : List (String × Option Value)}
    {held : List (Option Value)} {value : Option Value} (h : settleAll slots seen = .ok held)
    (hslot : slot ∈ slots) (hseen : seen.lookup slot.key = some value) : (slot, value) ∈ slots.zip held := by
  have hsettled := mapM_eq_ok.1 h
  clear h
  induction hsettled with
  | nil => cases hslot
  | @cons other first slots held hfirst hrest ih =>
    rcases List.mem_cons.1 hslot with rfl | hmore
    · rw [hseen] at hfirst
      obtain rfl := Except.ok.inj hfirst
      exact List.mem_cons_self
    · exact List.mem_cons_of_mem _ (ih hmore)

/-- A record read by its keys holds what is read of the part, in the slot of its key. -/
theorem exists_held_of_readMembers {slots : List (Slot κ)} {slot : Slot κ} {held : List (Option Value)}
    {key : List Char} {before : List (Option (List Char) × Outline)} {rest : Members}
    (hslot : (slots.find? fun slot => slot.key = String.ofList key) = some slot) (hpart : part.Present)
    (hheld : readMembers body slots depth [] (.behind before (.member (some key) part rest)) = .ok held) :
    ∃ w, read body slot.format depth part = .ok w ∧ (slot, some w) ∈ slots.zip held := by
  obtain ⟨seen, hbefore, hmember⟩ := readMembers_behind before hheld
  obtain ⟨after, hnotes, hrest⟩ := readMembers_member_eq_ok_iff.1 hmember
  cases hnotes with
  | passed hkey => rw [hkey] at hslot; cases hslot
  | @filled _ _ slot' _ hkey hfresh hvalue =>
    obtain rfl : slot = slot' := Option.some.inj (hslot.symm.trans hkey)
    rw [readSlot_of_null? (hpart _)] at hvalue
    obtain ⟨w, hw, rfl⟩ := map_eq_ok.1 hvalue
    -- What is noted of the members behind the part keeps what is noted of the part.
    obtain ⟨members, after, rfl, hmore, hsettle⟩ := exists_notesAll rest hrest
    have hseen := hmore.keeps (List.lookup_cons_self (k := slot.key) (b := some w))
    exact ⟨w, hw, mem_zip_settleAll hsettle (List.mem_of_find?_eq_some hslot) hseen⟩

/-- A record read in order holds what is read of the part, in the slot of its place. -/
theorem exists_held_of_readRow {slots : List (Slot κ)} {slot : Slot κ} {held : List (Option Value)}
    {before : List Outline} {rest : Items} (hslot : slots[before.length]? = some slot) (hpart : part.Present)
    (hheld : readRow body slots depth (.behind before (.item part rest)) = .ok held) :
    ∃ w, read body slot.format depth part = .ok w ∧ (slot, some w) ∈ slots.zip held := by
  obtain ⟨us, ws, hlength, hws, rfl, -⟩ := readRow_behind before hheld
  obtain ⟨hbound, rfl⟩ := List.getElem?_eq_some_iff.1 hslot
  rw [List.drop_eq_getElem_cons hbound] at hws
  obtain ⟨value, ws', hvalue, hws', rfl⟩ := readRow_item_eq_ok_iff.1 hws
  rw [readSlot_of_null? (hpart _)] at hvalue
  obtain ⟨w, hw, rfl⟩ := map_eq_ok.1 hvalue
  refine ⟨w, hw, List.mem_of_getElem? (i := before.length) ?_⟩
  exact List.getElem?_zip_eq_some.2 ⟨hslot, getElem?_behind hlength _ _⟩

theorem Frame.Asks.branch?_of_read (h : frame.Asks body f branch g) (hbody : WellFormed body)
    (hpart : part.Present) (hv : read body f depth (frame.fill part) = .ok v) :
    ∃ depth' w, read body g depth' part = .ok w ∧ v.branch? branch = some w := by
  cases depth with
  | zero => cases frame with
    | member before key rest => exact absurd hv (read_zero_object _ _ v)
    | item before rest => exact absurd hv (read_zero_array _ _ v)
  | succ depth =>
    refine ⟨depth, ?_⟩
    cases h with
    | @member name slots slot hslots before key hslot rest =>
      rw [Frame.fill, read_record hslots] at hv
      obtain ⟨held, hheld, rfl⟩ := map_eq_ok.1 hv
      obtain ⟨w, hw, hmem⟩ := exists_held_of_readMembers hslot hpart hheld
      exact ⟨w, hw, branch?_recordValue (hbody.distinct hslots) hmem⟩
    | item _ before rest =>
      rw [Frame.fill, read_list] at hv
      obtain ⟨vs, hvs, rfl⟩ := map_eq_ok.1 hv
      obtain ⟨us, ws, hlength, hws, rfl, -⟩ := readItems_behind before hvs
      obtain ⟨w, ws', hw, hws', rfl⟩ := readItems_item_eq_ok_iff.1 hws
      exact ⟨w, hw, getElem?_behind hlength w ws'⟩
    | first first second rest =>
      rw [Frame.fill, read_pair] at hv
      obtain ⟨held, hheld, rfl⟩ := map_eq_ok.1 hv
      obtain ⟨value, ws, hvalue, hws, rfl⟩ := readRow_item_eq_ok_iff.1 hheld
      obtain ⟨w, hw, rfl⟩ := map_eq_ok.1 hvalue
      exact ⟨w, hw, rfl⟩
    | second first second before rest =>
      rw [Frame.fill, read_pair] at hv
      obtain ⟨held, hheld, rfl⟩ := map_eq_ok.1 hv
      obtain ⟨other, ws, hother, hws, rfl⟩ := readRow_item_eq_ok_iff.1 hheld
      obtain ⟨value, ws, hvalue, hws, rfl⟩ := readRow_item_eq_ok_iff.1 hws
      obtain ⟨u, hu, rfl⟩ := map_eq_ok.1 hother
      obtain ⟨w, hw, rfl⟩ := map_eq_ok.1 hvalue
      exact ⟨w, hw, rfl⟩
    | @row name slots slot hslots before hslot rest =>
      rw [Frame.fill, read_row (.record hslots)] at hv
      obtain ⟨held, hheld, rfl⟩ := map_eq_ok.1 hv
      obtain ⟨w, hw, hmem⟩ := exists_held_of_readRow hslot hpart hheld
      exact ⟨w, hw, branch?_recordValue (hbody.distinct hslots) hmem⟩
    | @case name cases case _ hcases key hcase rest =>
      rw [Frame.fill, Members.behind, List.foldr_nil, read_choice hcases] at hv
      simp only [readCase, caseOf, hcase] at hv
      split at hv
      · rename_i w hw
        obtain rfl := eq_of_endChoice hv
        refine ⟨w, hw, ?_⟩
        rw [Value.branch?, List.lookup_cons_self]
        rfl
      · cases hv

/-- The value of a document holds at the place of a part what is read of the part. -/
theorem Leads.at?_of_read (h : Leads body frames f path g) (hbody : WellFormed body) (hpart : part.Present)
    (hv : read body f depth (part.within frames) = .ok v) :
    ∃ depth' w, read body g depth' part = .ok w ∧ v.at? path = some w := by
  induction h generalizing depth v with
  | here f => exact ⟨depth, v, hv, rfl⟩
  | @inside frame frames f g target branch path hframe h ih =>
    obtain ⟨depth', w, hw, hbranch⟩ := hframe.branch?_of_read hbody (hpart.within frames) hv
    obtain ⟨depth'', w', hw', hpath⟩ := ih hw
    refine ⟨depth'', w', hw', ?_⟩
    rw [Value.at?, List.foldlM_cons, hbranch]
    exact hpath

end IdlGen.Json
