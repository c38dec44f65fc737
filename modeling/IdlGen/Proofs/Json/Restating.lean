import IdlGen.Proofs.Json.Inside
import IdlGen.Proofs.Json.Lexing
import Mathlib.Logic.Relation

/-!
# Other texts that say the same

A text says no more than its outline: blanks and the spellings of strings are not in it. And an outline
can be restated, one step after another at any depth: the members of a record change places, members that
no slot asks for are put in, and texts change places if their keys differ. Reading notices none of this.
-/

namespace IdlGen.Json

variable {κ : Type}

/-- A step from one way of saying something to another one, where this format is asked for. -/
inductive Restates (body : κ → Body κ) : Format κ → Outline → Outline → Prop
  /-- The members of a record change places. -/
  | permute {name : κ} {slots : List (Slot κ)} (hbody : body name = .record slots)
      {members members' : List (Option (List Char) × Outline)} (h : members.Perm members') :
      Restates body (.named name) (.object (.behind members .close)) (.object (.behind members' .close))
  /-- A member that fills no slot is put into a record. -/
  | insert {name : κ} {slots : List (Slot κ)} (hbody : body name = .record slots)
      (before : List (Option (List Char) × Outline)) {key : List Char}
      (hkey : ∀ slot ∈ slots, slot.key ≠ String.ofList key) {value : Outline} (hvalue : value.Whole)
      (rest : Members) :
      Restates body (.named name) (.object (.behind before rest))
        (.object (.behind before (.member (some key) value rest)))
  /-- Texts under different keys change places. -/
  | permuteTexts {members members' : List (Option (List Char) × Outline)}
      (hkeys : (members.map Prod.fst).Nodup) (h : members.Perm members') :
      Restates body .texts (.object (.behind members .close)) (.object (.behind members' .close))
  /-- The value of a slot is restated. -/
  | member {name : κ} {slots : List (Slot κ)} {slot : Slot κ} (hbody : body name = .record slots)
      (before : List (Option (List Char) × Outline)) {key : List Char}
      (hslot : (slots.find? fun slot => slot.key = String.ofList key) = some slot) {value held : Outline}
      (h : Restates body slot.format value held) (rest : Members) :
      Restates body (.named name) (.object (.behind before (.member (some key) value rest)))
        (.object (.behind before (.member (some key) held rest)))
  | item {f : Format κ} (before : List Outline) {value held : Outline} (h : Restates body f value held)
      (rest : Items) :
      Restates body (.list f) (.array (.behind before (.item value rest)))
        (.array (.behind before (.item held rest)))
  | row {f : Format κ} {slots : List (Slot κ)} {slot : Slot κ} (hrow : RowOf body f slots)
      (before : List Outline) (hslot : slots[before.length]? = some slot) {value held : Outline}
      (h : Restates body slot.format value held) (rest : Items) :
      Restates body f (.array (.behind before (.item value rest)))
        (.array (.behind before (.item held rest)))
  | case {name : κ} {cases : List (String × Option (Format κ))} {case : String} {f : Format κ}
      (hbody : body name = .choice cases) {key : List Char}
      (hcase : (cases.find? fun c => c.1 = String.ofList key) = some (case, some f)) {value held : Outline}
      (h : Restates body f value held) (rest : Members) :
      Restates body (.named name) (.object (.member (some key) value rest))
        (.object (.member (some key) held rest))

/-! ### Members in another order -/

section Order

variable {body : κ → Body κ} {slots : List (Slot κ)} {depth : Nat}

/-- The same has been seen, perhaps in another order. -/
def SameSeen (seen seen' : List (String × Option Value)) : Prop := ∀ key, seen.lookup key = seen'.lookup key

theorem SameSeen.cons {seen seen' : List (String × Option Value)} (h : SameSeen seen seen')
    (entry : String × Option Value) : SameSeen (entry :: seen) (entry :: seen') := by
  intro key
  rw [List.lookup_cons, List.lookup_cons, h key]

theorem SameSeen.swap {key other : String} (hkeys : key ≠ other) (value held : Option Value)
    (seen : List (String × Option Value)) :
    SameSeen ((key, value) :: (other, held) :: seen) ((other, held) :: (key, value) :: seen) := by
  intro k
  by_cases hk : k = key
  · subst hk
    simp [List.lookup_cons, beq_false_of_ne hkeys]
  · simp [List.lookup_cons, beq_false_of_ne hk]

theorem settleAll_congr {seen seen' : List (String × Option Value)} (h : SameSeen seen seen') :
    settleAll slots seen = settleAll slots seen' := by
  rw [settleAll, settleAll]
  simp only [h _]

theorem Notes.congr {seen seen' after : List (String × Option Value)} {key : Option (List Char)}
    {value : Outline} (h : Notes body slots depth seen key value after) (hseen : SameSeen seen seen') :
    ∃ after', Notes body slots depth seen' key value after' ∧ SameSeen after after' := by
  cases h with
  | passed hkey hvalue => exact ⟨seen', .passed hkey hvalue, hseen⟩
  | filled hkey hfresh hvalue => exact ⟨_, .filled hkey (hseen _ ▸ hfresh) hvalue, hseen.cons _⟩

theorem readMembers_congr {held : List (Option Value)} :
    (members : Members) → ∀ {seen seen' : List (String × Option Value)}, SameSeen seen seen' →
      readMembers body slots depth seen members = .ok held →
        readMembers body slots depth seen' members = .ok held
  | .close, _, _, hseen, h => (settleAll_congr hseen).symm.trans h
  | .member key value rest, _, _, hseen, h => by
    obtain ⟨after, hnotes, hrest⟩ := readMembers_member_eq_ok_iff.1 h
    obtain ⟨after', hnotes', hsame⟩ := hnotes.congr hseen
    exact readMembers_member_eq_ok_iff.2 ⟨after', hnotes', readMembers_congr rest hsame hrest⟩
  | .bare key fault, _, _, _, h => by
    unfold readMembers at h
    split at h <;> cases h
  | .stray found, _, _, _, h | .cut fault, _, _, _, h => by cases h

/-- Two members that are noted one after the other can be noted the other way round. -/
theorem Notes.swap {seen between after : List (String × Option Value)} {key other : Option (List Char)}
    {value held : Outline} (hfirst : Notes body slots depth seen key value between)
    (hsecond : Notes body slots depth between other held after) :
    ∃ between' after', Notes body slots depth seen other held between' ∧
      Notes body slots depth between' key value after' ∧ SameSeen after after' := by
  cases hfirst with
  | passed hkey hvalue =>
    cases hsecond with
    | passed hother hheld => exact ⟨_, _, .passed hother hheld, .passed hkey hvalue, fun _ => rfl⟩
    | filled hother hfresh hheld =>
      exact ⟨_, _, .filled hother hfresh hheld, .passed hkey hvalue, fun _ => rfl⟩
  | @filled key value slot v hkey hfresh hvalue =>
    cases hsecond with
    | passed hother hheld => exact ⟨_, _, .passed hother hheld, .filled hkey hfresh hvalue, fun _ => rfl⟩
    | @filled other held slot' w hother hfresh' hheld =>
      -- The second slot is not the first one, which has been filled by then.
      have hslots : slot'.key ≠ slot.key := by
        intro hsame
        rw [hsame, List.lookup_cons, beq_self_eq_true] at hfresh'
        cases hfresh'
      rw [lookup_cons_of_ne hslots] at hfresh'
      have hstill : List.lookup slot.key ((slot'.key, w) :: seen) = none := by
        rw [lookup_cons_of_ne hslots.symm, hfresh]
      exact ⟨_, _, .filled hother hfresh' hheld, .filled hkey hstill hvalue, SameSeen.swap hslots _ _ seen⟩

theorem readMembers_swap {seen : List (String × Option Value)} {key other : Option (List Char)}
    {value held : Outline} {rest : Members} {vs : List (Option Value)}
    (h : readMembers body slots depth seen (.member key value (.member other held rest)) = .ok vs) :
    readMembers body slots depth seen (.member other held (.member key value rest)) = .ok vs := by
  obtain ⟨between, hfirst, h⟩ := readMembers_member_eq_ok_iff.1 h
  obtain ⟨after, hsecond, hrest⟩ := readMembers_member_eq_ok_iff.1 h
  obtain ⟨between', after', hsecond', hfirst', hsame⟩ := hfirst.swap hsecond
  have hrest' := readMembers_congr rest hsame hrest
  exact readMembers_member_eq_ok_iff.2
    ⟨between', hsecond', readMembers_member_eq_ok_iff.2 ⟨after', hfirst', hrest'⟩⟩

theorem readMembers_perm {members members' : List (Option (List Char) × Outline)}
    (h : members.Perm members') {seen : List (String × Option Value)} {vs : List (Option Value)}
    (hvs : readMembers body slots depth seen (.behind members .close) = .ok vs) :
    readMembers body slots depth seen (.behind members' .close) = .ok vs := by
  induction h generalizing seen with
  | nil => exact hvs
  | cons m h ih =>
    obtain ⟨after, hnotes, hrest⟩ := readMembers_member_eq_ok_iff.1 hvs
    exact readMembers_member_eq_ok_iff.2 ⟨after, hnotes, ih hrest⟩
  | swap m m' members => exact readMembers_swap hvs
  | trans h h' ih ih' => exact ih' (ih hvs)

theorem readTexts_swap {soFar m : Keyed String} {key other : Option (List Char)} (hkeys : key ≠ other)
    {value held : Outline} {rest : Members}
    (h : readTexts soFar (.member key value (.member other held rest)) = .ok m) :
    readTexts soFar (.member other held (.member key value rest)) = .ok m := by
  obtain ⟨name, text, rfl, rfl, hmore⟩ := readTexts_member_eq_ok_iff.1 h
  obtain ⟨name', text', rfl, rfl, hrest⟩ := readTexts_member_eq_ok_iff.1 hmore
  have hnames : String.ofList name ≠ String.ofList name' :=
    fun hsame => hkeys (by rw [String.ofList_inj.1 hsame])
  rw [readTexts, readTexts, ← Keyed.insert_comm _ hnames]
  exact hrest

theorem readTexts_perm {members members' : List (Option (List Char) × Outline)} (h : members.Perm members')
    (hkeys : (members.map Prod.fst).Nodup) {soFar m : Keyed String}
    (hm : readTexts soFar (.behind members .close) = .ok m) :
    readTexts soFar (.behind members' .close) = .ok m := by
  induction h generalizing soFar with
  | nil => exact hm
  | cons entry h ih =>
    obtain ⟨name, text, hname, htext, hrest⟩ := readTexts_member_eq_ok_iff.1 hm
    exact readTexts_member_eq_ok_iff.2 ⟨name, text, hname, htext, ih (List.nodup_cons.1 hkeys).2 hrest⟩
  | swap entry entry' members =>
    have hdifferent : entry'.1 ≠ entry.1 :=
      fun hsame => (List.nodup_cons.1 hkeys).1 (hsame ▸ List.mem_cons_self)
    exact readTexts_swap hdifferent hm
  | trans h h' ih ih' => exact ih' ((h.map Prod.fst).nodup_iff.1 hkeys) (ih hkeys hm)

end Order

/-! ### Reading what is restated -/

variable {body : κ → Body κ} {f : Format κ} {o o' : Outline}

/-- Only arrays and objects can be restated, so a slot that may be null is not at issue. -/
theorem Restates.null? (h : Restates body f o o') (presence : Presence) :
    presence.null? o = none ∧ presence.null? o' = none := by
  cases h <;> cases presence <;> exact ⟨rfl, rfl⟩

/-- What can be read is read as the same value when it is restated. -/
theorem Restates.read (h : Restates body f o o') :
    ∀ depth v, read body f depth o = .ok v → read body f depth o' = .ok v := by
  induction h with
  | permute hbody hmembers =>
    rintro (_ | depth) v hv
    · exact absurd hv (read_zero_object _ _ v)
    · rw [read_record hbody] at hv ⊢
      obtain ⟨vs, hvs, rfl⟩ := map_eq_ok.1 hv
      exact map_eq_ok.2 ⟨vs, readMembers_perm hmembers hvs, rfl⟩
  | @insert name slots hbody before key hkey value hvalue rest =>
    rintro (_ | depth) v hv
    · exact absurd hv (read_zero_object _ _ v)
    · rw [read_record hbody] at hv ⊢
      obtain ⟨vs, hvs, rfl⟩ := map_eq_ok.1 hv
      obtain ⟨seen, hbefore, hrest⟩ := readMembers_behind before hvs
      have hnone : (slots.find? fun slot => slot.key = String.ofList key) = none :=
        List.find?_eq_none.2 fun slot hslot => by simpa using hkey slot hslot
      have hnotes : Notes body slots depth seen (some key) value seen := .passed hnone hvalue
      exact map_eq_ok.2 ⟨vs, by rw [hbefore.readMembers, hnotes.readMembers, hrest], rfl⟩
  | permuteTexts hkeys hmembers =>
    rintro (_ | depth) v hv
    · exact absurd hv (read_zero_object _ _ v)
    · rw [read_texts] at hv ⊢
      obtain ⟨m, hm, rfl⟩ := map_eq_ok.1 hv
      exact map_eq_ok.2 ⟨m, readTexts_perm hmembers hkeys hm, rfl⟩
  | member hbody before hslot h rest ih =>
    exact fun depth v => (Exchanges.member hbody before hslot rest).read_same h.null? ih
  | item before h rest ih => exact fun depth v => (Exchanges.item _ before rest).read_same h.null? ih
  | row hrow before hslot h rest ih =>
    exact fun depth v => (Exchanges.row hrow before hslot rest).read_same h.null? ih
  | case hbody hcase h rest ih =>
    exact fun depth v => (Exchanges.case hbody hcase rest).read_same h.null? ih

end IdlGen.Json
