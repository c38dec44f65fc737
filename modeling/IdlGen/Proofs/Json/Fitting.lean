import IdlGen.Proofs.Json.Depth
import IdlGen.Proofs.Json.Parts

/-!
# What is read fits

Reading by a format gives nothing but values that fit the format. For this the formats have to be in order:
each slot of a record has a key of its own, and what is filled in for a missing member fits its slot
(`WellFormed`).
-/

namespace IdlGen.Json

variable {κ : Type} {body : κ → Body κ}

/-- What is filled in if the slot has no member fits the slot. -/
def FitsDefault (body : κ → Body κ) (slot : Slot κ) : Prop :=
  ∀ v, slot.presence = .otherwise v → Fits body slot.format v

structure WellFormed (body : κ → Body κ) : Prop where
  distinct {name : κ} {slots : List (Slot κ)} : body name = .record slots → (slots.map (·.key)).Nodup
  defaults {name : κ} {slots : List (Slot κ)} :
    body name = .record slots → ∀ slot ∈ slots, FitsDefault body slot

theorem fitsDefault_required (key : String) (f : Format κ) : FitsDefault body ⟨key, f, .required⟩ := by
  intro v hv
  cases hv

/-- Whether the value is a text or a mark, as the format asks, or empty. -/
def Format.allowsPlain : Format κ → Value → Bool
  | .text, .string _ => true
  | .flag, .flag _ => true
  | .list _, .array [] => true
  | .texts, .object [] => true
  | _, _ => false

theorem Format.fits_of_allowsPlain {f : Format κ} {v : Value} (h : f.allowsPlain v) : Fits body f v := by
  unfold allowsPlain at h
  split at h
  · exact .text _
  · exact .flag _
  · exact .list fun item hitem => absurd hitem List.not_mem_nil
  · exact .texts ∅
  · cases h

/-- Whether what is filled in for a missing member is plain. -/
def Slot.plainDefault (slot : Slot κ) : Bool :=
  match slot.presence with
  | .otherwise v => slot.format.allowsPlain v
  | _ => true

theorem fitsDefault_of_plain {slot : Slot κ} (h : slot.plainDefault) : FitsDefault body slot := by
  intro v hv
  rw [Slot.plainDefault, hv] at h
  exact Format.fits_of_allowsPlain h

theorem WellFormed.of_slots
    (h : ∀ name slots, body name = .record slots →
      (slots.map (·.key)).Nodup ∧ ∀ slot ∈ slots, slot.plainDefault) : WellFormed body :=
  ⟨fun hslots => (h _ _ hslots).1, fun hslots slot hslot => fitsDefault_of_plain ((h _ _ hslots).2 slot hslot)⟩

/-! ### Slots -/

theorem fitsSlot_of_settle {slot : Slot κ} {held : Option Value} (hdefault : FitsDefault body slot)
    (h : slot.presence.settle = .ok held) : FitsSlot body slot held := by
  unfold Presence.settle at h
  split at h
  · cases h
  · rename_i hpresence
    obtain rfl := Except.ok.inj h
    exact ⟨fun _ => hpresence, nofun⟩
  · rename_i v hpresence
    obtain rfl := Except.ok.inj h
    exact .filled (hdefault v hpresence)

theorem fitsSlot_of_readSlot {slot : Slot κ} {depth : Nat} {value : Outline} {held : Option Value}
    (hread : ∀ v, read body slot.format depth value = .ok v → Fits body slot.format v)
    (h : readSlot body slot depth value = .ok held) : FitsSlot body slot held := by
  rw [readSlot] at h
  split at h
  · rename_i found hnull
    unfold Presence.null? at hnull
    split at hnull
    · rename_i hpresence
      obtain rfl := Option.some.inj hnull
      obtain rfl := Except.ok.inj h
      exact ⟨fun _ => hpresence, nofun⟩
    · obtain rfl := Option.some.inj hnull
      cases h
    · cases hnull
  · obtain ⟨v, hv, rfl⟩ := map_eq_ok.1 h
    exact .filled (hread v hv)

/-- What has been seen fits the slots that have these keys. -/
def SeenFits (body : κ → Body κ) (slots : List (Slot κ)) (seen : List (String × Option Value)) : Prop :=
  ∀ slot ∈ slots, ∀ held, seen.lookup slot.key = some held → FitsSlot body slot held

theorem fits_of_settleAll {slots : List (Slot κ)} {seen : List (String × Option Value)}
    {held : List (Option Value)} (hdefaults : ∀ slot ∈ slots, FitsDefault body slot)
    (hseen : SeenFits body slots seen) (h : settleAll slots seen = .ok held) :
    List.Forall₂ (FitsSlot body) slots held := by
  have hsettled := mapM_eq_ok.1 h
  rw [List.forall₂_iff_zip] at hsettled ⊢
  refine ⟨hsettled.1, fun {slot value} hmem => ?_⟩
  have hslot : slot ∈ slots := (List.of_mem_zip hmem).1
  have hvalue := hsettled.2 hmem
  split at hvalue
  · rename_i found hfound
    obtain rfl := Except.ok.inj hvalue
    exact hseen slot hslot _ hfound
  · exact fitsSlot_of_settle (hdefaults slot hslot) hvalue

theorem SeenFits.nothing (slots : List (Slot κ)) : SeenFits body slots [] := by
  intro slot hslot held hheld
  cases hheld

theorem SeenFits.noted {slots : List (Slot κ)} {seen seen' : List (String × Option Value)} {depth : Nat}
    {key : Option (List Char)} {value : Outline} (hkeys : (slots.map (·.key)).Nodup)
    (hread : ∀ f v, read body f depth value = .ok v → Fits body f v) (hseen : SeenFits body slots seen)
    (h : Notes body slots depth seen key value seen') : SeenFits body slots seen' := by
  cases h with
  | passed hkey hvalue => exact hseen
  | @filled _ _ slot held hkey hfresh hvalue =>
    intro other hother found hfound
    by_cases hsame : other.key = slot.key
    · obtain rfl := List.inj_on_of_nodup_map hkeys hother (List.mem_of_find?_eq_some hkey) hsame
      rw [List.lookup_cons, beq_self_eq_true] at hfound
      obtain rfl := Option.some.inj hfound
      exact fitsSlot_of_readSlot (hread _) hvalue
    · rw [lookup_cons_of_ne hsame] at hfound
      exact hseen other hother found hfound

/-! ### All outlines -/

theorem find?_of_caseOf {cases : List (String × Option (Format κ))} {key : Option (List Char)}
    {found : String × Option (Format κ)} (h : caseOf cases key = .ok found) :
    (cases.find? fun c => c.1 = found.1) = some found := by
  cases key with
  | none => cases h
  | some key =>
    rw [caseOf] at h
    split at h
    · cases h
    · rename_i c hfind
      obtain rfl := Except.ok.inj h
      have hkey : c.1 = String.ofList key := by simpa using List.find?_some hfind
      rw [hkey]
      exact hfind

theorem fits_of_readBareCase {name : κ} {cases : List (String × Option (Format κ))}
    (hcases : body name = .choice cases) {o : Outline} {v : Value} (h : readBareCase cases o = .ok v) :
    Fits body (.named name) v := by
  unfold readBareCase at h
  split at h
  case h_1 key =>
    split at h
    case h_1 case hcase =>
      obtain rfl := Except.ok.inj h
      exact .bare hcases (find?_of_caseOf hcase)
    case h_2 | h_3 => cases h
  case h_2 | h_3 | h_4 => cases h

theorem fits_of_readLeaf {f : Format κ} {o : Outline} {v : Value} (h : readLeaf body f o = .ok v) :
    Fits body f v := by
  unfold readLeaf at h
  split at h
  case h_1 s =>
    obtain rfl := Except.ok.inj h
    exact .text _
  case h_2 | h_3 =>
    obtain rfl := Except.ok.inj h
    exact .flag _
  case h_4 low high n =>
    split at h
    case h_1 i hi =>
      split at h
      case isTrue hrange =>
        obtain rfl := Except.ok.inj h
        obtain ⟨hsigned, hunsigned⟩ := n.integer?_range hi
        exact .integer hrange.1 hrange.2 hsigned hunsigned
      case isFalse => cases h
    case h_2 => cases h
  case h_5 n =>
    split at h
    case h_1 x hx =>
      obtain rfl := Except.ok.inj h
      exact .double x
    case h_2 => cases h
  case h_6 name =>
    split at h
    case h_1 cases hcases => exact fits_of_readBareCase hcases h
    case h_2 => cases h
  case h_7 => cases h

/-- Both slots of a pair hold something. -/
theorem fits_pair {first second : Format κ} {held : List (Option Value)}
    (h : List.Forall₂ (FitsSlot body) [⟨"", first, .required⟩, ⟨"", second, .required⟩] held) :
    Fits body (.pair first second) (.array (held.filterMap id)) := by
  obtain ⟨v, _, hv, hsecond, rfl⟩ := List.forall₂_cons_left_iff.1 h
  obtain ⟨w, _, hw, hrest, rfl⟩ := List.forall₂_cons_left_iff.1 hsecond
  obtain rfl := List.forall₂_nil_left_iff.1 hrest
  cases v with
  | none => exact absurd (hv.1 rfl) Presence.noConfusion
  | some v =>
    cases w with
    | none => exact absurd (hw.1 rfl) Presence.noConfusion
    | some w => exact .pair (hv.2 v rfl) (hw.2 w rfl)

mutual

theorem Outline.fits_of_read (hbody : WellFormed body) {f : Format κ} {depth : Nat} {v : Value} :
    (o : Outline) → read body f depth o = .ok v → Fits body f v
  | .array items, h => by
    unfold read at h
    split at h
    case h_1 item =>
      split at h
      case h_1 => cases h
      case h_2 depth =>
        obtain ⟨vs, hvs, rfl⟩ := map_eq_ok.1 h
        exact .list (items.fits_of_readItems hbody hvs)
    case h_2 first second =>
      split at h
      case h_1 => cases h
      case h_2 depth =>
        obtain ⟨held, hheld, rfl⟩ := map_eq_ok.1 h
        have hrow := items.fits_of_readRow hbody
          (List.forall_mem_cons.2 ⟨fitsDefault_required _ _,
            List.forall_mem_singleton.2 (fitsDefault_required _ _)⟩) hheld
        exact fits_pair hrow
    case h_3 name =>
      split at h
      case h_1 slots hslots =>
        split at h
        case h_1 => cases h
        case h_2 depth =>
          obtain ⟨held, hheld, rfl⟩ := map_eq_ok.1 h
          exact .of_slots hslots (hbody.distinct hslots)
            (items.fits_of_readRow hbody (hbody.defaults hslots) hheld)
      case h_2 => cases h
    case h_4 => cases h
  | .object members, h => by
    unfold read at h
    split at h
    case h_1 =>
      split at h
      case h_1 => cases h
      case h_2 depth =>
        obtain ⟨m, -, rfl⟩ := map_eq_ok.1 h
        exact .texts m
    case h_2 name =>
      split at h
      case h_1 => cases h
      case h_2 depth =>
        split at h
        case h_1 slots hslots =>
          obtain ⟨held, hheld, rfl⟩ := map_eq_ok.1 h
          exact .of_slots hslots (hbody.distinct hslots)
            (members.fits_of_readMembers hbody (hbody.distinct hslots) (hbody.defaults hslots)
              (.nothing slots) hheld)
        case h_2 cases hcases => exact members.fits_of_readCase hbody hcases h
    case h_3 => cases h
  | .word w, h | .number n, h | .string text, h | .broken found, h => by
    rw [read] at h
    exact fits_of_readLeaf h

theorem Items.fits_of_readItems (hbody : WellFormed body) {f : Format κ} {depth : Nat} {vs : List Value} :
    (items : Items) → readItems body f depth items = .ok vs → ∀ v ∈ vs, Fits body f v
  | .close, h => by
    obtain rfl := Except.ok.inj h
    exact fun v hv => absurd hv List.not_mem_nil
  | .item value rest, h => by
    obtain ⟨v, ws, hv, hws, rfl⟩ := readItems_item_eq_ok_iff.1 h
    exact List.forall_mem_cons.2 ⟨value.fits_of_read hbody hv, rest.fits_of_readItems hbody hws⟩
  | .cut fault, h => nomatch h

theorem Items.fits_of_readRow (hbody : WellFormed body) {slots : List (Slot κ)} {depth : Nat}
    {held : List (Option Value)} (hdefaults : ∀ slot ∈ slots, FitsDefault body slot) :
    (items : Items) → readRow body slots depth items = .ok held → List.Forall₂ (FitsSlot body) slots held
  | .close, h => fits_of_settleAll hdefaults (.nothing slots) h
  | .item value rest, h => by
    cases slots with
    | nil => cases h
    | cons slot slots =>
      obtain ⟨v, ws, hv, hws, rfl⟩ := readRow_item_eq_ok_iff.1 h
      obtain ⟨-, hmore⟩ := List.forall_mem_cons.1 hdefaults
      exact .cons (fitsSlot_of_readSlot (fun _ => value.fits_of_read hbody) hv)
        (rest.fits_of_readRow hbody hmore hws)
  | .cut fault, h => nomatch h

theorem Members.fits_of_readMembers (hbody : WellFormed body) {slots : List (Slot κ)} {depth : Nat}
    {seen : List (String × Option Value)} {held : List (Option Value)}
    (hkeys : (slots.map (·.key)).Nodup) (hdefaults : ∀ slot ∈ slots, FitsDefault body slot)
    (hseen : SeenFits body slots seen) :
    (members : Members) → readMembers body slots depth seen members = .ok held →
      List.Forall₂ (FitsSlot body) slots held
  | .close, h => fits_of_settleAll hdefaults hseen h
  | .member key value rest, h => by
    obtain ⟨seen', hnotes, hrest⟩ := readMembers_member_eq_ok_iff.1 h
    have hseen' := hseen.noted hkeys (fun _ _ => value.fits_of_read hbody) hnotes
    exact rest.fits_of_readMembers hbody hkeys hdefaults hseen' hrest
  | .bare key fault, h => by
    unfold readMembers at h
    split at h <;> cases h
  | .stray found, h | .cut fault, h => nomatch h

theorem Members.fits_of_readCase (hbody : WellFormed body) {name : κ}
    {cases : List (String × Option (Format κ))} (hcases : body name = .choice cases) {depth : Nat} {v : Value} :
    (members : Members) → readCase body cases depth members = .ok v → Fits body (.named name) v
  | .close, h => nomatch h
  | .member key value rest, h => by
    unfold readCase at h
    split at h
    case h_1 => cases h
    case h_2 case hcase =>
      split at h
      case h_1 =>
        obtain rfl := eq_of_endChoice h
        exact .bare hcases (find?_of_caseOf hcase)
      case h_2 => cases h
    case h_3 case f hcase =>
      split at h
      case h_1 v hv =>
        obtain rfl := eq_of_endChoice h
        exact .case hcases (find?_of_caseOf hcase) (value.fits_of_read hbody hv)
      case h_2 => cases h
  | .bare key fault, h => by
    unfold readCase at h
    split at h <;> cases h
  | .stray found, h | .cut fault, h => nomatch h

end

end IdlGen.Json
