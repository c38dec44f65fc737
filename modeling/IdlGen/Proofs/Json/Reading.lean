import IdlGen.Json.Document
import IdlGen.Proofs.Json.Nesting
import IdlGen.Proofs.Json.Outlines
import IdlGen.Proofs.Keyed
import Mathlib.Data.List.Nodup

/-!
# Reading back what a format allows

A value fits a format if it is what reading by the format could give: every slot that has to be filled
is, integers are in range, and dictionaries are in order. Reading the outline of such a value gives the
value back, unless it is too deep.
-/

namespace IdlGen.Json

variable {κ : Type}

/-- A value that a format allows, as reading gives it. -/
inductive Fits (body : κ → Body κ) : Format κ → Value → Prop where
  | text (s : String) : Fits body .text (.string s)
  | flag (b : Bool) : Fits body .flag (.flag b)
  | integer {low high n : Int} (hlow : low ≤ n) (hhigh : n ≤ high)
      (hsigned : -9223372036854775808 ≤ n) (hunsigned : n < 18446744073709551616) :
      Fits body (.integer low high) (.integer n)
  | double (x : Binary64) : Fits body .double (.double x)
  | texts (m : Keyed String) :
      Fits body .texts (.object (m.entries.map fun e => (e.1, some (.string e.2))))
  | list {item : Format κ} {items : List Value} (hitems : ∀ v ∈ items, Fits body item v) :
      Fits body (.list item) (.array items)
  | pair {first second : Format κ} {v w : Value} (hv : Fits body first v)
      (hw : Fits body second w) : Fits body (.pair first second) (.array [v, w])
  | record {name : κ} {slots : List (Slot κ)} {held : List (Option Value)}
      (hbody : body name = .record slots) (hkeys : (slots.map (·.key)).Nodup)
      (hlength : slots.length = held.length)
      (habsent : ∀ p ∈ slots.zip held, p.2 = none → p.1.presence = .optional)
      (hheld : ∀ p ∈ slots.zip held, ∀ v, p.2 = some v → Fits body p.1.format v) :
      Fits body (.named name) (recordValue slots held)
  | bare {name : κ} {cases : List (String × Option (Format κ))} {key : String}
      (hbody : body name = .choice cases)
      (hcase : (cases.find? fun c => c.1 = key) = some (key, none)) :
      Fits body (.named name) (.string key)
  | case {name : κ} {cases : List (String × Option (Format κ))} {key : String} {f : Format κ}
      {v : Value} (hbody : body name = .choice cases)
      (hcase : (cases.find? fun c => c.1 = key) = some (key, some f)) (hv : Fits body f v) :
      Fits body (.named name) (.object [(key, some v)])

/-- What a slot may hold in a value that fits. -/
def FitsSlot (body : κ → Body κ) (slot : Slot κ) (held : Option Value) : Prop :=
  (held = none → slot.presence = .optional) ∧ ∀ v, held = some v → Fits body slot.format v

section Building

variable {body : κ → Body κ} {slot : Slot κ}

theorem FitsSlot.filled {v : Value} (h : Fits body slot.format v) :
    FitsSlot body slot (some v) := by
  refine ⟨(nomatch ·), fun w hw => ?_⟩
  obtain rfl := Option.some.inj hw
  exact h

theorem FitsSlot.optional {α : Type} {held : Option α} {toValue : α → Value}
    (hpresence : slot.presence = .optional)
    (h : ∀ a, held = some a → Fits body slot.format (toValue a)) :
    FitsSlot body slot (held.map toValue) := by
  refine ⟨fun _ => hpresence, fun v hv => ?_⟩
  obtain ⟨a, ha, rfl⟩ := Option.map_eq_some_iff.1 hv
  exact h a ha

/-- A record fits if each of its slots does. -/
theorem Fits.of_slots {name : κ} {slots : List (Slot κ)} {held : List (Option Value)}
    (hbody : body name = .record slots) (hkeys : (slots.map (·.key)).Nodup)
    (h : List.Forall₂ (FitsSlot body) slots held) :
    Fits body (.named name) (recordValue slots held) := by
  obtain ⟨hlength, hslots⟩ := List.forall₂_iff_zip.1 h
  exact .record hbody hkeys hlength (fun p hp => (hslots hp).1) fun p hp => (hslots hp).2

theorem Fits.of_list {α : Type} {item : Format κ} {l : List α} {toValue : α → Value}
    (h : ∀ a ∈ l, Fits body item (toValue a)) : Fits body (.list item) (.array (l.map toValue)) :=
  .list (List.forall_mem_map.2 h)

end Building

/-- What reading makes of something that nests `n` deep, where `depth` is allowed. -/
def limited {α : Type} (depth n : Nat) (a : α) : Except Fault α :=
  if n ≤ depth then .ok a else .error .malformed

section Limited

variable {α β : Type} {depth n : Nat}

theorem limited_of_le (h : n ≤ depth) (a : α) : limited depth n a = .ok a := if_pos h

theorem limited_of_lt (h : depth < n) (a : α) : limited depth n a = .error .malformed :=
  if_neg (Nat.not_le_of_lt h)

theorem limited_zero (depth : Nat) (a : α) : limited depth 0 a = .ok a :=
  limited_of_le (Nat.zero_le depth) a

theorem limited_max_of_le (h : n ≤ depth) (m : Nat) (a : α) :
    limited depth (max n m) a = limited depth m a := by
  have hmax : max n m ≤ depth ↔ m ≤ depth := by omega
  simp only [limited, hmax]

theorem limited_max_of_lt (h : depth < n) (m : Nat) (a : α) :
    limited depth (max n m) a = .error .malformed :=
  limited_of_lt (by omega) a

theorem limited_succ (depth n : Nat) (a : α) :
    limited (depth + 1) (n + 1) a = limited depth n a := by
  simp only [limited, Nat.add_le_add_iff_right]

theorem limited_map (depth n : Nat) (a : α) (f : α → β) :
    (limited depth n a).map f = limited depth n (f a) := by
  unfold limited
  split <;> rfl

end Limited

variable {body : κ → Body κ}

/-- The value is read back, by the format and up to the depth. -/
def ReadsBackAs (body : κ → Body κ) (f : Format κ) (v : Value) : Prop :=
  ∀ depth, read body f depth v.outline = limited depth v.nesting v

theorem readItems_outline {f : Format κ} {items : List Value}
    (h : ∀ v ∈ items, ReadsBackAs body f v) (depth : Nat) :
    readItems body f depth (Value.itemsOutline items) =
      limited depth (Value.itemsNesting items) items := by
  induction items with
  | nil => rfl
  | cons v items ih =>
    obtain ⟨hv, hitems⟩ := List.forall_mem_cons.1 h
    rw [Value.itemsOutline, readItems, hv depth, ih hitems, Value.itemsNesting]
    rcases Nat.lt_or_ge depth v.nesting with hdeep | hflat
    · rw [limited_of_lt hdeep, limited_max_of_lt hdeep]
    · rw [limited_of_le hflat, limited_max_of_le hflat]
      exact limited_map depth _ items (v :: ·)

/-! ### Records -/

theorem null?_outline (presence : Presence) {v : Value} (hv : v ≠ .null) :
    presence.null? v.outline = none := by
  cases presence with
  | required | otherwise value => rfl
  | optional =>
    cases v with
    | null => exact absurd rfl hv
    | flag b => cases b <;> rfl
    | integer n | double x | string s | array items | object members => rfl

theorem find?_key {done todo : List (Slot κ)} {slot : Slot κ}
    (hkeys : ((done ++ slot :: todo).map (·.key)).Nodup) :
    ((done ++ slot :: todo).find? fun other => other.key = slot.key) = some slot := by
  have hdone : (done.find? fun other => other.key = slot.key) = none := by
    rw [List.find?_eq_none]
    intro other hother
    have hdisjoint := (List.nodup_append.1 (List.map_append ▸ hkeys)).2.2
    simpa using hdisjoint other.key (List.mem_map_of_mem hother) slot.key
      (List.mem_map_of_mem List.mem_cons_self)
  rw [List.find?_append, hdone, Option.none_or, List.find?_cons_of_pos (by simp)]

/-- What has been seen says what a slot holds. -/
def Settles (seen : List (String × Option Value)) (slot : Slot κ) (held : Option Value) : Prop :=
  seen.lookup slot.key = held.map some ∧ (held = none → slot.presence = .optional)

theorem settleAll_eq_ok {seen : List (String × Option Value)} {slots : List (Slot κ)}
    {held : List (Option Value)} (h : List.Forall₂ (Settles seen) slots held) :
    settleAll slots seen = .ok held := by
  unfold settleAll
  induction h with
  | nil => rfl
  | @cons slot value slots held hslot hrest ih =>
    rw [List.mapM_cons, hslot.1, ih]
    cases value with
    | none =>
      rw [hslot.2 rfl]
      rfl
    | some v => rfl

/-- A slot holds something that is read back, or nothing if it may. -/
def Filled (body : κ → Body κ) (slot : Slot κ) (held : Option Value) : Prop :=
  (held = none → slot.presence = .optional) ∧
    ∀ v, held = some v → v ≠ .null ∧ ReadsBackAs body slot.format v

theorem lookup_cons_of_ne {seen : List (String × Option Value)} {key other : String}
    (hne : other ≠ key) (value : Option Value) :
    ((key, value) :: seen).lookup other = seen.lookup other := by
  rw [List.lookup_cons, beq_false_of_ne hne]

/-- The members of a record, from the first slot that has not been passed yet. -/
theorem readMembers_outline {todo : List (Slot κ)} {held : List (Option Value)}
    (h : List.Forall₂ (Filled body) todo held) (done : List (Slot κ)) (before : List (Option Value))
    (seen : List (String × Option Value)) (hkeys : ((done ++ todo).map (·.key)).Nodup)
    (hdone : List.Forall₂ (Settles seen) done before)
    (hfresh : ∀ slot ∈ todo, seen.lookup slot.key = none) (depth : Nat) :
    readMembers body (done ++ todo) depth seen
        (Value.membersOutline (List.zipWith (fun slot value => (slot.key, value)) todo held)) =
      limited depth
        (Value.membersNesting (List.zipWith (fun slot value => (slot.key, value)) todo held))
        (before ++ held) := by
  induction h generalizing done before seen with
  | nil =>
    rw [List.append_nil, List.append_nil]
    exact settleAll_eq_ok hdone
  | @cons slot value todo held hslot hrest ih =>
    obtain ⟨hnone, hmore⟩ := List.forall_mem_cons.1 hfresh
    have hshift : done ++ slot :: todo = (done ++ [slot]) ++ todo := List.append_cons done slot todo
    cases value with
    | none =>
      have hsettles : Settles seen slot none := ⟨hnone, hslot.1⟩
      have hih := ih (done ++ [slot]) (before ++ [none]) seen (hshift ▸ hkeys)
        (List.rel_append hdone (.cons hsettles .nil)) hmore
      rw [hshift, List.append_cons before]
      exact hih
    | some v =>
      obtain ⟨hvalue, hread⟩ := hslot.2 v rfl
      have hclaim : claim (done ++ slot :: todo) seen (some slot.key.toList) = .ok (some slot) := by
        simp only [claim, String.ofList_toList, find?_key hkeys, hnone, Option.isSome_none,
          Bool.false_eq_true, if_false]
      -- No other slot has the key that has been seen now.
      have hothers : ∀ other ∈ done ++ todo, other.key ≠ slot.key := by
        intro other hother hsame
        have hperm := List.nodup_middle.1 (List.map_append ▸ hkeys)
        rw [← List.map_append] at hperm
        have hmem : slot.key ∈ (done ++ todo).map (·.key) := by
          rw [← hsame]
          exact List.mem_map_of_mem hother
        exact (List.nodup_cons.1 hperm).1 hmem
      have hsettles : List.Forall₂ (Settles ((slot.key, some v) :: seen)) (done ++ [slot])
          (before ++ [some v]) := by
        refine List.rel_append ?_ (.cons ⟨?_, fun habsent => nomatch habsent⟩ .nil)
        · rw [List.forall₂_iff_zip] at hdone ⊢
          refine ⟨hdone.1, fun {other old} hmem => ?_⟩
          obtain ⟨hlookup, habsent⟩ := hdone.2 hmem
          have hother : other ∈ done ++ todo := List.mem_append_left _ (List.of_mem_zip hmem).1
          exact ⟨by rw [lookup_cons_of_ne (hothers other hother), hlookup], habsent⟩
        · rw [List.lookup_cons, beq_self_eq_true]
          rfl
      have hfresher : ∀ other ∈ todo, ((slot.key, some v) :: seen).lookup other.key = none := by
        intro other hother
        rw [lookup_cons_of_ne (hothers other (List.mem_append_right _ hother))]
        exact hmore other hother
      have hih := ih (done ++ [slot]) (before ++ [some v]) ((slot.key, some v) :: seen)
        (hshift ▸ hkeys) hsettles hfresher
      rw [← hshift, ← List.append_cons before] at hih
      rw [List.zipWith_cons_cons, Value.membersOutline, Value.membersNesting, readMembers, hclaim]
      simp only [null?_outline slot.presence hvalue, hread depth]
      rcases Nat.lt_or_ge depth v.nesting with hdeep | hflat
      · rw [limited_of_lt hdeep, limited_max_of_lt hdeep]
        rfl
      · rw [limited_of_le hflat, limited_max_of_le hflat]
        exact hih

/-! ### All formats -/

theorem Fits.ne_null {f : Format κ} {v : Value} (h : Fits body f v) : v ≠ .null := by
  cases h <;> exact Value.noConfusion

theorem readTexts_outline (soFar : Keyed String) (entries : List (String × String)) :
    readTexts soFar
        (Value.membersOutline (entries.map fun e => (e.1, some (.string e.2)))) =
      .ok (entries.foldl (fun m e => m.insert e.1 e.2) soFar) := by
  induction entries generalizing soFar with
  | nil => rfl
  | cons entry entries ih =>
    rw [List.map_cons, Value.membersOutline, Value.outline, readTexts]
    simp only [String.ofList_toList]
    rw [ih, List.foldl_cons]

theorem nesting_texts (entries : List (String × String)) :
    Value.membersNesting (entries.map fun e => (e.1, some (.string e.2))) = 0 := by
  induction entries with
  | nil => rfl
  | cons entry entries ih =>
    rw [List.map_cons, Value.membersNesting, ih]
    rfl

theorem readRow_pair {first second : Format κ} {v w : Value} (hv : ReadsBackAs body first v)
    (hw : ReadsBackAs body second w) (depth : Nat) :
    readRow body [⟨"", first, .required⟩, ⟨"", second, .required⟩] depth
        (Value.itemsOutline [v, w]) =
      limited depth (max v.nesting w.nesting) [some v, some w] := by
  have hnull : ∀ o, Presence.required.null? o = none := fun _ => rfl
  simp only [Value.itemsOutline, readRow, hnull, hv depth, hw depth]
  rcases Nat.lt_or_ge depth v.nesting with hdeep | hflat
  · rw [limited_of_lt hdeep, limited_max_of_lt hdeep]
    rfl
  · rw [limited_of_le hflat, limited_max_of_le hflat]
    rcases Nat.lt_or_ge depth w.nesting with hdeeper | hflatter
    · rw [limited_of_lt hdeeper, limited_of_lt hdeeper]
      rfl
    · rw [limited_of_le hflatter, limited_of_le hflatter]
      rfl

theorem caseOf_eq_ok {cases : List (String × Option (Format κ))} {key : String}
    {f : Option (Format κ)} (hcase : (cases.find? fun c => c.1 = key) = some (key, f)) :
    caseOf cases (some key.toList) = .ok (key, f) := by
  rw [caseOf, String.ofList_toList, hcase]

theorem read_record {name : κ} {slots : List (Slot κ)} (hbody : body name = .record slots)
    (depth : Nat) (members : Members) :
    read body (.named name) (depth + 1) (.object members) =
      (readMembers body slots depth [] members).map (recordValue slots) := by
  simp only [read, hbody]

theorem read_choice {name : κ} {cases : List (String × Option (Format κ))}
    (hbody : body name = .choice cases) (depth : Nat) (members : Members) :
    read body (.named name) (depth + 1) (.object members) = readCase body cases depth members := by
  simp only [read, hbody]

theorem read_bareCase {name : κ} {cases : List (String × Option (Format κ))}
    (hbody : body name = .choice cases) (depth : Nat) (text : Option (List Char)) :
    read body (.named name) depth (.string text) = readBareCase cases (.string text) := by
  simp only [read, readLeaf, hbody]

/-- A value that fits a format is read back, unless it is too deep. -/
theorem Fits.reads_back {f : Format κ} {v : Value} (h : Fits body f v) (hv : v.Sound) :
    ReadsBackAs body f v := by
  induction h with
  | text s =>
    intro depth
    rw [Value.outline, read, readLeaf, String.ofList_toList]
    exact (limited_zero depth _).symm
  | flag b =>
    intro depth
    cases b <;> exact (limited_zero depth _).symm
  | @integer low high n hlow hhigh hsigned hunsigned =>
    intro depth
    rw [Value.outline, read, readLeaf, Numeral.integer?_ofInt hsigned hunsigned]
    simp only [if_pos (And.intro hlow hhigh)]
    exact (limited_zero depth _).symm
  | double x =>
    intro depth
    rw [Value.outline, read, readLeaf, (Value.read_double hv.double).2]
    exact (limited_zero depth _).symm
  | texts m =>
    intro depth
    cases depth with
    | zero => exact (limited_of_lt (Nat.succ_pos _) _).symm
    | succ depth =>
      have hentries : m.entries.foldl (fun m e => m.insert e.1 e.2) ∅ = m := Keyed.ofList_entries m
      change (readTexts ∅ _).map _ = _
      rw [readTexts_outline, hentries, Value.nesting, nesting_texts, limited_succ, limited_zero]
      rfl
  | @list item items hitems ih =>
    intro depth
    have hall : ∀ v ∈ items, ReadsBackAs body item v := fun v hmem => ih v hmem (hv.item v hmem)
    cases depth with
    | zero => exact (limited_of_lt (Nat.succ_pos _) _).symm
    | succ depth =>
      change (readItems body item depth _).map Value.array = _
      rw [readItems_outline hall, limited_map, Value.nesting, limited_succ]
  | @pair first second v w hfirst hsecond ihFirst ihSecond =>
    intro depth
    have hreadFirst := ihFirst (hv.item v List.mem_cons_self)
    have hreadSecond := ihSecond (hv.item w (List.mem_cons_of_mem _ List.mem_cons_self))
    have hnesting : (Value.array [v, w]).nesting = max v.nesting w.nesting + 1 := by
      simp only [Value.nesting, Value.itemsNesting, Nat.max_zero]
    cases depth with
    | zero => exact (limited_of_lt (Nat.succ_pos _) _).symm
    | succ depth =>
      change (readRow body _ depth _).map _ = _
      rw [readRow_pair hreadFirst hreadSecond, limited_map, hnesting, limited_succ]
      rfl
  | @record name slots held hbody hkeys hlength habsent hheld ih =>
    intro depth
    have hfilled : List.Forall₂ (Filled body) slots held := by
      rw [List.forall₂_iff_zip]
      refine ⟨hlength, fun {slot value} hmem => ⟨habsent _ hmem, fun v hvalue => ?_⟩⟩
      have hmember : (slot.key, value) ∈
          List.zipWith (fun slot value => (slot.key, value)) slots held := by
        rw [← List.map_uncurry_zip_eq_zipWith]
        exact List.mem_map_of_mem hmem
      exact ⟨(hheld _ hmem v hvalue).ne_null, ih _ hmem v hvalue (hv.member _ hmember v hvalue)⟩
    have hmembers := readMembers_outline hfilled [] [] [] hkeys .nil fun slot _ => rfl
    rw [List.nil_append, List.nil_append] at hmembers
    cases depth with
    | zero => exact (limited_of_lt (Nat.succ_pos _) _).symm
    | succ depth =>
      refine (read_record hbody depth _).trans ?_
      rw [hmembers depth, limited_map, recordValue, Value.nesting, limited_succ]
  | @bare name cases key hbody hcase =>
    intro depth
    rw [Value.outline, read_bareCase hbody, readBareCase, caseOf_eq_ok hcase]
    exact (limited_zero depth _).symm
  | @case name cases key f v hbody hcase hfits ih =>
    intro depth
    have hread := ih (hv.member _ List.mem_cons_self v rfl)
    have hnesting : (Value.object [(key, some v)]).nesting = v.nesting + 1 := by
      simp only [Value.nesting, Value.membersNesting, Nat.max_zero]
    cases depth with
    | zero => exact (limited_of_lt (Nat.succ_pos _) _).symm
    | succ depth =>
      refine (read_choice hbody depth (.member (some key.toList) v.outline .close)).trans ?_
      rw [readCase, caseOf_eq_ok hcase]
      dsimp only
      rw [hread depth, hnesting, limited_succ]
      rcases Nat.lt_or_ge depth v.nesting with hdeep | hflat
      · rw [limited_of_lt hdeep, limited_of_lt hdeep]
      · rw [limited_of_le hflat, limited_of_le hflat]
        rfl

/-- Both texts of a value that fits a format are read back, unless they are too deep. -/
theorem readText_texts {f : Format κ} {v : Value} (h : Fits body f v) (hv : v.Sound) :
    readText body f v.compact = limited depthLimit v.nesting v ∧
      readText body f (v.indented 0) = limited depthLimit v.nesting v := by
  have hread := h.reads_back hv depthLimit
  have hoffered : ∀ text, Outline.ofText text = (v.outline, []) →
      readText body f text = limited depthLimit v.nesting v := by
    intro text htext
    rw [readText, htext]
    dsimp only
    rw [hread]
    rcases Nat.lt_or_ge depthLimit v.nesting with hdeep | hflat
    · rw [limited_of_lt hdeep]
    · rw [limited_of_le hflat]
      rfl
  obtain ⟨hcompact, hindented⟩ := Value.ofText_texts hv
  exact ⟨hoffered _ hcompact, hoffered _ hindented⟩

/-! ### Documents -/

/-- What is saved has the format of its type, and turns back into itself. -/
class Faithful (α : Type) [Document α] : Prop where
  fits (x : α) : Fits Document.grammar (Document.format α) (Document.toValue x)
  ofValue_toValue (x : α) : Document.ofValue (Document.toValue x) = some x

theorem ofText_saved {α : Type} [Document α] [Faithful α] {x : α}
    (hx : (Document.toValue x).Sound) :
    (Document.ofText (Document.toText x) : Except Fault α) =
        limited depthLimit (nesting (Document.toText x)) x ∧
      (Document.ofText (Document.toIndentedText x) : Except Fault α) =
        limited depthLimit (nesting (Document.toIndentedText x)) x := by
  obtain ⟨hcompact, hindented⟩ := readText_texts (Faithful.fits x) hx
  obtain ⟨hdepth, hdepthIndented⟩ := Value.nesting_texts hx
  have hback : ∀ n, Document.ofReading (limited depthLimit n (Document.toValue x)) =
      limited depthLimit n x := by
    intro n
    rcases Nat.lt_or_ge depthLimit n with hdeep | hflat
    · rw [limited_of_lt hdeep, limited_of_lt hdeep]
      rfl
    · rw [limited_of_le hflat, limited_of_le hflat, Document.ofReading,
        Faithful.ofValue_toValue]
  constructor
  · rw [Document.ofText, Document.toText, Value.toText, String.toList_ofList, hcompact, hback]
    exact congrArg (limited depthLimit · x) hdepth.symm
  · rw [Document.ofText, Document.toIndentedText, Value.toIndentedText, String.toList_ofList,
      hindented, hback]
    exact congrArg (limited depthLimit · x) hdepthIndented.symm

end IdlGen.Json
