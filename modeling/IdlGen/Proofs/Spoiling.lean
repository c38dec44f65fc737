import IdlGen.Proofs.Rephrasing

/-!
# Spoiled texts

A record bears no second member for a slot, wherever in it the copy stands, and no required slot without a
member; and a choice is over behind its one member. So a text that can be read is refused once one object
in it that is read, at any depth, is damaged in one of these ways. The damage decides how it is refused:
what stands in front of it is read as before, and nothing behind the object is.
-/

namespace IdlGen.Json

variable {κ : Type} {body : κ → Body κ}

/-- What makes of the members of an object, where this format is asked for, members that are refused with
this fault. -/
inductive Damages (body : κ → Body κ) : Fault → Format κ → Members → Members → Prop
  /-- A member that fills a slot is copied to some place among the members of a record. -/
  | double {name : κ} {slots : List (Slot κ)} (hbody : body name = .record slots) {slot : Slot κ}
      {key : List Char} (hslot : (slots.find? fun slot => slot.key = String.ofList key) = some slot)
      {value : Outline} (before after : List (Option (List Char) × Outline))
      (hmem : (some key, value) ∈ before ++ after) :
      Damages body .mismatched (.named name) (.behind (before ++ after) .close)
        (.behind (before ++ (some key, value) :: after) .close)
  /-- The member of a required slot is taken out of a record. -/
  | remove {name : κ} {slots : List (Slot κ)} (hbody : body name = .record slots) {slot : Slot κ}
      (hslot : slot ∈ slots) (hrequired : slot.presence = .required) {key : List Char}
      (hkey : slot.key = String.ofList key) (before : List (Option (List Char) × Outline)) (value : Outline)
      (after : List (Option (List Char) × Outline)) :
      Damages body .mismatched (.named name) (.behind (before ++ (some key, value) :: after) .close)
        (.behind (before ++ after) .close)
  /-- A second member is put behind the one member of a choice. -/
  | append {name : κ} {cases : List (String × Option (Format κ))} (hbody : body name = .choice cases)
      (key key' : Option (List Char)) (value value' : Outline) :
      Damages body .malformed (.named name) (.member key value .close)
        (.member key value (.member key' value' .close))

/-- The second outline is the first one after damage to one of the objects in it that are read. -/
inductive Spoils (body : κ → Body κ) (fault : Fault) : Format κ → Outline → Outline → Prop
  | here {f : Format κ} {members members' : Members} (h : Damages body fault f members members') :
      Spoils body fault f (.object members) (.object members')
  | inside {f g : Format κ} {part part' o o' : Outline} (hpart : Spoils body fault g part part')
      (h : Exchanges body part part' f g o o') : Spoils body fault f o o'

/-! ### Records -/

section Records

variable {slots : List (Slot κ)} {depth : Nat} {slot : Slot κ} {key : List Char} {value : Outline}
  {seen after : List (String × Option Value)}

/-- A slot whose member has been read has been seen. -/
theorem NotesAll.isSome_of_mem {members : List (Option (List Char) × Outline)}
    (h : NotesAll body slots depth seen members after)
    (hslot : (slots.find? fun slot => slot.key = String.ofList key) = some slot)
    (hmem : (some key, value) ∈ members) : (after.lookup slot.key).isSome := by
  induction h with
  | nil => exact absurd hmem List.not_mem_nil
  | cons hfirst hmore ih =>
    rcases List.mem_cons.1 hmem with rfl | hmem
    · cases hfirst with
      | passed hkey hvalue => rw [hkey] at hslot; cases hslot
      | filled hkey hfresh hvalue =>
        obtain rfl := Option.some.inj (hkey.symm.trans hslot)
        rw [hmore.keeps List.lookup_cons_self]
        rfl
    · exact ih hmem

theorem readMembers_again {before : List (Option (List Char) × Outline)} {rest : Members}
    {held : List (Option Value)} (h : readMembers body slots depth seen (.behind before rest) = .ok held)
    (hslot : (slots.find? fun slot => slot.key = String.ofList key) = some slot)
    (hmem : (some key, value) ∈ before) (more : Members) :
    readMembers body slots depth seen (.behind before (.member (some key) value more)) =
      .error .mismatched := by
  obtain ⟨after, hbefore, -⟩ := readMembers_behind before h
  have hclaim : claim slots after (some key) = .error .mismatched := by
    simp only [claim, hslot, hbefore.isSome_of_mem hslot hmem, if_true]
  rw [hbefore.readMembers, readMembers_refused hclaim]

theorem readMembers_doubled {before after : List (Option (List Char) × Outline)} {held : List (Option Value)}
    (h : readMembers body slots depth seen (.behind (before ++ after) .close) = .ok held)
    (hslot : (slots.find? fun slot => slot.key = String.ofList key) = some slot)
    (hmem : (some key, value) ∈ before ++ after) :
    readMembers body slots depth seen (.behind (before ++ (some key, value) :: after) .close) =
      .error .mismatched := by
  rcases List.mem_append.1 hmem with hbefore | hafter
  · rw [Members.behind_append] at h ⊢
    exact readMembers_again h hslot hbefore _
  · -- Reading comes to the member itself after its copy, with all that stands between read.
    obtain ⟨between, after, rfl⟩ := List.append_of_mem hafter
    have hperm : (before ++ (between ++ (some key, value) :: after)).Perm
        ((before ++ (some key, value) :: between) ++ after) := by
      rw [List.append_assoc, List.cons_append]
      exact .append_left before List.perm_middle
    have hfront := readMembers_perm hperm h
    rw [Members.behind_append] at hfront
    have hagain := readMembers_again hfront hslot
      (List.mem_append_right before List.mem_cons_self) (.behind after .close)
    rw [← List.cons_append, ← List.append_assoc, Members.behind_append]
    exact hagain

theorem settleAll_lacking (hslot : slot ∈ slots) (hrequired : slot.presence = .required)
    (hlookup : seen.lookup slot.key = none) : settleAll slots seen = .error .mismatched := by
  refine mapM_of_error (fun other _ fault hfault => ?_) ?_ hslot
  · split at hfault
    · cases hfault
    · unfold Presence.settle at hfault
      split at hfault
      · exact (Except.error.inj hfault).symm
      · cases hfault
      · cases hfault
  · rw [hlookup, hrequired]
    rfl

theorem readMembers_removed {before after : List (Option (List Char) × Outline)} {held : List (Option Value)}
    (h : readMembers body slots depth seen (.behind (before ++ (some key, value) :: after) .close) = .ok held)
    (hslot : slot ∈ slots) (hrequired : slot.presence = .required) (hkey : slot.key = String.ofList key) :
    readMembers body slots depth seen (.behind (before ++ after) .close) = .error .mismatched := by
  -- The member might as well stand last.
  have hperm : (before ++ (some key, value) :: after).Perm ((before ++ after) ++ [(some key, value)]) :=
    List.perm_middle.trans (List.perm_append_singleton _ _).symm
  have hlast := readMembers_perm hperm h
  rw [Members.behind_append] at hlast
  obtain ⟨others, hothers, hmember⟩ := readMembers_behind (before ++ after) hlast
  obtain ⟨all, hnotes, -⟩ := readMembers_member_eq_ok_iff.1 hmember
  rw [hothers.readMembers]
  cases hnotes with
  | passed hnone => exact absurd (List.find?_eq_none.1 hnone slot hslot) (by simpa using hkey)
  | filled hfound hfresh =>
    have hsame := List.find?_some hfound
    rw [decide_eq_true_eq, ← hkey] at hsame
    exact settleAll_lacking hslot hrequired (hsame ▸ hfresh)

end Records

/-! ### Choices -/

theorem readCase_continued {cases : List (String × Option (Format κ))} {depth : Nat}
    {key : Option (List Char)} {value : Outline} {v : Value}
    (h : readCase body cases depth (.member key value .close) = .ok v) (key' : Option (List Char))
    (value' : Outline) :
    readCase body cases depth (.member key value (.member key' value' .close)) = .error .malformed := by
  unfold readCase at h ⊢
  split at h
  · cases h
  · split at h
    · rfl
    · cases h
  · split at h
    · rfl
    · cases h

/-! ### Reading what is spoiled -/

theorem Damages.read {fault : Fault} {f : Format κ} {members members' : Members}
    (h : Damages body fault f members members') (depth : Nat) (v : Value)
    (hv : read body f depth (.object members) = .ok v) :
    read body f depth (.object members') = .error fault := by
  cases depth with
  | zero => exact absurd hv (read_zero_object _ _ v)
  | succ depth =>
    cases h with
    | double hbody hslot before after hmem =>
      rw [read_record hbody] at hv ⊢
      obtain ⟨held, hheld, -⟩ := map_eq_ok.1 hv
      rw [readMembers_doubled hheld hslot hmem]
      rfl
    | remove hbody hslot hrequired hkey before value after =>
      rw [read_record hbody] at hv ⊢
      obtain ⟨held, hheld, -⟩ := map_eq_ok.1 hv
      rw [readMembers_removed hheld hslot hrequired hkey]
      rfl
    | append hbody key key' value value' =>
      rw [read_choice hbody] at hv ⊢
      exact readCase_continued hv key' value'

variable {fault : Fault} {f : Format κ} {o o' : Outline}

theorem Spoils.null? (h : Spoils body fault f o o') (presence : Presence) :
    presence.null? o = none ∧ presence.null? o' = none := by
  cases h with
  | here h => cases presence <;> exact ⟨rfl, rfl⟩
  | inside hpart h => cases h <;> cases presence <;> exact ⟨rfl, rfl⟩

theorem Spoils.read (h : Spoils body fault f o o') :
    ∀ depth v, read body f depth o = .ok v → read body f depth o' = .error fault := by
  induction h with
  | here h => exact h.read
  | inside hpart h ih => exact fun depth v => h.read_refused hpart.null? ih

/-- The second text says what the first one says after damage to an object that is read. -/
def SpoilsText (body : κ → Body κ) (fault : Fault) (f : Format κ) (text text' : List Char) : Prop :=
  ∃ o o', Writes text o ∧ Spoils body fault f o o' ∧ Writes text' o'

/-- A text from which something is read is refused once it is spoiled, with the fault of the damage. -/
theorem ofText_spoiled {α : Type} [Document α] {text text' : String} {x : α} {fault : Fault}
    (h : Document.ofText text = .ok x)
    (hspoils : SpoilsText Document.grammar fault (Document.format α) text.toList text'.toList) :
    (Document.ofText text' : Except Fault α) = .error fault := by
  obtain ⟨o, o', hwrites, hspoiled, hwrites'⟩ := hspoils
  rw [Document.ofText] at h ⊢
  cases hread : readText Document.grammar (Document.format α) text.toList with
  | error fault => rw [hread] at h; cases h
  | ok v =>
    obtain ⟨_, hwritten, hv⟩ := readText_eq_ok_iff.1 hread
    obtain rfl := (Prod.mk.inj (hwrites.ofText.symm.trans hwritten.ofText)).1
    have hrefused := hspoiled.read depthLimit v hv
    have htext : readText Document.grammar (Document.format α) text'.toList = .error fault := by
      rw [readText, hwrites'.ofText]
      simp only [hrefused]
    rw [htext]
    rfl

set_option maxRecDepth 10000 in
/-- A constant of a program that has its type twice, one that has lost its name, and one whose type goes on
behind its base. -/
theorem ofText_spoiled_constant :
    let declaring (members : String) :=
      "\x7b\"info\":\x7b\"name\":\"p\"\x7d,\"definitions\":[\x7b\"const\":\x7b" ++ members ++
        ",\"value\":\x7b\"integer\":1\x7d\x7d\x7d]\x7d"
    let text := declaring "\"name\":\"c\",\"type\":\x7b\"base\":\"i32\"\x7d"
    let doubled :=
      declaring "\"type\":\x7b\"base\":\"i32\"\x7d,\"name\":\"c\",\"type\":\x7b\"base\":\"i32\"\x7d"
    let removed := declaring "\"type\":\x7b\"base\":\"i32\"\x7d"
    let appended := declaring "\"name\":\"c\",\"type\":\x7b\"base\":\"i32\", \"list\":null\x7d"
    let program : Program :=
      { info := { name := "p" }
        definitions := [.constant { name := "c", type := .base .i32, value := .integer 1 }] }
    Document.ofText text = .ok program ∧
      (Document.ofText doubled : Except Fault Program) = .error .mismatched ∧
      (Document.ofText removed : Except Fault Program) = .error .mismatched ∧
      (Document.ofText appended : Except Fault Program) = .error .malformed := by
  intro declaring text doubled removed appended program
  let object (members : List (Option (List Char) × Outline)) : Outline := .object (.behind members .close)
  let info := object [(some "name".toList, .string (some ['p']))]
  let whole (constant : Outline) : Outline :=
    .object (.member (some "info".toList) info (.member (some "definitions".toList)
      (.array (.item (.object (.member (some "const".toList) constant .close)) .close)) .close))
  let name : Option (List Char) × Outline := (some "name".toList, .string (some ['c']))
  let base : Option (List Char) × Outline := (some "base".toList, .string (some "i32".toList))
  let later : Option (List Char) × Outline := (some "list".toList, .word .null)
  let type (o : Outline) : Option (List Char) × Outline := (some "type".toList, o)
  let value : Option (List Char) × Outline :=
    (some "value".toList, object [(some "integer".toList, .number ⟨false, ['1'], [], none⟩)])
  -- From the program to its constant, and from there to the type.
  have hlist (o o' : Outline) : Exchanges Schema.grammar o o' (.named .program)
      (Schema.many "definitions" .definition).format
      (.object (.member (some "info".toList) info (.member (some "definitions".toList) o .close)))
      (.object (.member (some "info".toList) info (.member (some "definitions".toList) o' .close))) :=
    .member rfl [(some "info".toList, info)] rfl .close
  have htype (o o' : Outline) : Exchanges Schema.grammar o o' (.named .constant) Schema.typeSlot.format
      (object [name, type o, value]) (object [name, type o', value]) :=
    .member rfl [name] rfl (.behind [value] .close)
  have hprogram {o o' : Outline} {fault : Fault} (h : Spoils Schema.grammar fault (.named .constant) o o') :
      Spoils Schema.grammar fault (.named .program) (whole o) (whole o') :=
    ((h.inside (.case rfl rfl .close)).inside (.item _ [] .close)).inside (hlist _ _)
  have hdoubled : Spoils Schema.grammar .mismatched (.named .constant)
      (object [name, type (object [base]), value])
      (object [type (object [base]), name, type (object [base]), value]) :=
    .here (.double rfl rfl [] [name, type (object [base]), value]
      (List.mem_cons_of_mem _ List.mem_cons_self))
  have hremoved : Spoils Schema.grammar .mismatched (.named .constant)
      (object [name, type (object [base]), value]) (object [type (object [base]), value]) :=
    .here (.remove rfl List.mem_cons_self rfl rfl [] _ [type (object [base]), value])
  have happended : Spoils Schema.grammar .malformed (.named .constant)
      (object [name, type (object [base]), value]) (object [name, type (object [base, later]), value]) :=
    (Spoils.here (.append rfl ..)).inside (htype _ _)
  -- What the texts write.
  have hbase : (object [base]).Whole := ⟨trivial, trivial⟩
  have hvalue : value.2.Whole := ⟨trivial, trivial⟩
  have hwhole {o : Outline} (h : o.Whole) : (whole o).Whole :=
    ⟨⟨trivial, trivial⟩, ⟨⟨h, trivial⟩, trivial⟩, trivial⟩
  have hwrites : Writes text.toList (whole (object [name, type (object [base]), value])) :=
    writes_of_scan (hwhole ⟨trivial, hbase, hvalue, trivial⟩) (by decide +kernel)
  have hwritesDoubled :
      Writes doubled.toList (whole (object [type (object [base]), name, type (object [base]), value])) :=
    writes_of_scan (hwhole ⟨hbase, trivial, hbase, hvalue, trivial⟩) (by decide +kernel)
  have hwritesRemoved : Writes removed.toList (whole (object [type (object [base]), value])) :=
    writes_of_scan (hwhole ⟨hbase, hvalue, trivial⟩) (by decide +kernel)
  have hwritesAppended : Writes appended.toList (whole (object [name, type (object [base, later]), value])) :=
    writes_of_scan (hwhole ⟨trivial, ⟨trivial, trivial, trivial⟩, hvalue, trivial⟩) (by decide +kernel)
  have hread : Document.ofText text = .ok program := by
    change Document.ofReading (readText Schema.grammar (.named .program) text.toList) = _
    rw [show readText Schema.grammar (.named .program) text.toList = .ok program.toValue from
      readText_eq_ok_iff.2 ⟨_, hwrites, rfl⟩]
    rfl
  exact ⟨hread, ofText_spoiled hread ⟨_, _, hwrites, hprogram hdoubled, hwritesDoubled⟩,
    ofText_spoiled hread ⟨_, _, hwrites, hprogram hremoved, hwritesRemoved⟩,
    ofText_spoiled hread ⟨_, _, hwrites, hprogram happended, hwritesAppended⟩⟩

end IdlGen.Json
