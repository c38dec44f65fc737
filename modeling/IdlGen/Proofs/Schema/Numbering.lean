import IdlGen.Schema.EnumDef
import Mathlib.Algebra.Ring.Int.Defs
import Mathlib.Algebra.Ring.Nat
import Mathlib.Data.List.Induction

/-!
# Numbers of labels

A label has the number of the last label up to it that gives one, and one more for each step from there;
without such a label it has its own index. Counting starts behind an imagined label -1 and never leaves
the words that it is done in: a given number has 32 bits, and a program is too short to count from there
to the end of 64 bits.
-/

namespace IdlGen.EnumDef

/-- The number that a label gives itself. -/
def givenAt (labels : List EnumLabel) (k : Nat) : Option Int32 := labels[k]?.bind EnumLabel.value

/-- The number that belongs to the label at index `k`. -/
inductive Counted (labels : List EnumLabel) (k : Nat) : Int → Prop where
  /-- The last label up to it that gives a number is the one at index `j`. -/
  | onFrom {j : Nat} {e : Int32} (hj : j ≤ k) (hgiven : givenAt labels j = some e)
      (hlast : ∀ i, j < i → i ≤ k → givenAt labels i = none) :
      Counted labels k (e.toInt + (k - j : Nat))
  /-- No label up to it gives a number. -/
  | fromStart (hnone : ∀ i ≤ k, givenAt labels i = none) : Counted labels k k

variable {labels : List EnumLabel} {k : Nat}

theorem Counted.given {e : Int32} (h : givenAt labels k = some e) : Counted labels k e.toInt := by
  have hcounted : Counted labels k (e.toInt + (k - k : Nat)) :=
    .onFrom (Nat.le_refl k) h fun i hlt hle => by omega
  rwa [Nat.sub_self, Int.natCast_zero, Int.add_zero] at hcounted

theorem Counted.first (h : givenAt labels 0 = none) : Counted labels 0 0 :=
  .fromStart fun i hi => by rw [Nat.le_zero.1 hi, h]

theorem Counted.next {n : Int} (hn : Counted labels k n) (h : givenAt labels (k + 1) = none) :
    Counted labels (k + 1) (n + 1) := by
  have hupTo : ∀ i, i ≤ k + 1 → (i ≤ k → givenAt labels i = none) → givenAt labels i = none := by
    intro i hi hearlier
    rcases Nat.le_succ_iff.1 hi with hle | rfl
    · exact hearlier hle
    · exact h
  cases hn with
  | @onFrom j e hj hgiven hlast =>
    have hsum : e.toInt + (k - j : Nat) + 1 = e.toInt + (k + 1 - j : Nat) := by omega
    rw [hsum]
    exact .onFrom (Nat.le_succ_of_le hj) hgiven fun i hlt hle => hupTo i hle (hlast i hlt)
  | fromStart hnone => exact .fromStart fun i hi => hupTo i hi (hnone i)

/-! ### The counter -/

/-- One step of counting. -/
def next (last : Int64) (l : EnumLabel) : Int64 :=
  match l.value with
  | some given => given.toInt64
  | none => last + 1

/-- The counter behind these labels. -/
def counter (labels : List EnumLabel) : Int64 := labels.foldl next (-1)

theorem counter_snoc (labels : List EnumLabel) (l : EnumLabel) :
    counter (labels ++ [l]) = next (counter labels) l := by
  simp only [counter, List.foldl_append, List.foldl_cons, List.foldl_nil]

theorem numberFrom_cons (last : Int64) (l : EnumLabel) (labels : List EnumLabel) :
    numberFrom last (l :: labels) = (l.name, next last l) :: numberFrom (next last l) labels := rfl

theorem numberFrom_append (last : Int64) (before after : List EnumLabel) :
    numberFrom last (before ++ after) =
      numberFrom last before ++ numberFrom (before.foldl next last) after := by
  induction before generalizing last with
  | nil => rfl
  | cons l before ih => simp only [List.cons_append, numberFrom_cons, ih, List.foldl_cons]

theorem numberFrom_names (last : Int64) (labels : List EnumLabel) :
    (numberFrom last labels).map (·.1) = labels.map (·.name) := by
  induction labels generalizing last with
  | nil => rfl
  | cons l labels ih => rw [numberFrom_cons, List.map_cons, List.map_cons, ih]

theorem numberFrom_length (last : Int64) (labels : List EnumLabel) :
    (numberFrom last labels).length = labels.length := by
  simpa using congrArg List.length (numberFrom_names last labels)

/-- A label has the counter behind it for its number. -/
theorem numbering_split {d : EnumDef} {before after : List EnumLabel} {l : EnumLabel}
    (h : d.labels = before ++ l :: after) :
    d.numbering[before.length]? = some (l.name, counter (before ++ [l])) := by
  have hbefore : (numberFrom (-1) before).length = before.length := numberFrom_length (-1) before
  rw [numbering, h, numberFrom_append, numberFrom_cons, counter_snoc,
    List.getElem?_append_right (Nat.le_of_eq hbefore), hbefore, Nat.sub_self]
  rfl

/-! ### Counting within words -/

/-- The counter stays in the 32-bit range, except for one step up for each label. -/
def InReach (labels : List EnumLabel) : Prop :=
  -2 ^ 31 ≤ (counter labels).toInt ∧ (counter labels).toInt ≤ 2 ^ 31 - 1 + labels.length

/-- One step further there is room for the counter, too. -/
theorem InReach.room (h : InReach labels) (hlength : labels.length < 2 ^ 62) :
    -2 ^ 63 ≤ (counter labels).toInt ∧ (counter labels).toInt + 1 < 2 ^ 63 := by
  obtain ⟨hlow, hhigh⟩ := h
  omega

theorem InReach.toInt_add_one (h : InReach labels) (hlength : labels.length < 2 ^ 62) :
    (counter labels + 1).toInt = (counter labels).toInt + 1 := by
  obtain ⟨hlow, hhigh⟩ := h.room hlength
  have hone : (1 : Int64).toInt = 1 := by decide
  rw [Int64.toInt_add, hone]
  exact Int.bmod_eq_of_le (by omega) (by omega)

theorem toInt_next_of_some {last : Int64} {l : EnumLabel} {e : Int32} (h : l.value = some e) :
    (next last l).toInt = e.toInt := by
  rw [next, h]
  exact Int32.toInt_toInt64 e

theorem InReach.toInt_next_of_none (h : InReach labels) (hlength : labels.length < 2 ^ 62)
    {l : EnumLabel} (hl : l.value = none) :
    (next (counter labels) l).toInt = (counter labels).toInt + 1 := by
  rw [next, hl]
  exact h.toInt_add_one hlength

theorem inReach_nil : InReach [] := ⟨by decide, by decide⟩

theorem inReach (hlength : labels.length < 2 ^ 62) : InReach labels := by
  induction labels using List.reverseRecOn with
  | nil => exact inReach_nil
  | append_singleton labels l ih =>
    rw [List.length_append, List.length_singleton] at hlength
    have hbehind := ih (by omega)
    unfold InReach
    rw [counter_snoc, List.length_append, List.length_singleton]
    cases hl : l.value with
    | some e =>
      have hlow := e.le_toInt
      have hhigh := e.toInt_lt
      rw [toInt_next_of_some hl]
      omega
    | none =>
      rw [hbehind.toInt_next_of_none (by omega) hl]
      obtain ⟨hlow, hhigh⟩ := hbehind
      omega

theorem givenAt_split (before after : List EnumLabel) (l : EnumLabel) :
    givenAt (before ++ l :: after) before.length = l.value := by
  simp [givenAt]

/-- Behind a label, the counter is at the number that belongs to it. -/
theorem counted {before after : List EnumLabel} {l : EnumLabel}
    (hlength : (before ++ l :: after).length < 2 ^ 62) :
    Counted (before ++ l :: after) before.length (counter (before ++ [l])).toInt := by
  induction before using List.reverseRecOn generalizing l after with
  | nil =>
    have hgiven := givenAt_split [] after l
    rw [counter_snoc]
    cases hl : l.value with
    | some e =>
      rw [toInt_next_of_some hl]
      exact .given (hgiven.trans hl)
    | none =>
      rw [inReach_nil.toInt_next_of_none (by decide) hl]
      exact .first (hgiven.trans hl)
  | append_singleton before m ih =>
    have hgiven := givenAt_split (before ++ [m]) after l
    rw [counter_snoc]
    cases hl : l.value with
    | some e =>
      rw [toInt_next_of_some hl]
      exact .given (hgiven.trans hl)
    | none =>
      have hshorter : (before ++ [m]).length < 2 ^ 62 := by
        rw [List.length_append] at hlength
        omega
      rw [(inReach hshorter).toInt_next_of_none hshorter hl]
      rw [List.length_append, List.append_assoc] at hgiven
      rw [List.append_assoc] at hlength
      rw [List.length_append, List.append_assoc]
      exact (ih hlength).next (hgiven.trans hl)

/-- Every label is numbered, once and in its place, with the number that belongs to it, which lies in the
32-bit range or no further above it than there are labels. Wherever counting has got to, the counter and
one more are numbers of 64 bits, so that counting on is addition. -/
theorem numbering_exact (d : EnumDef) (hlength : d.labels.length < 2 ^ 62) :
    d.numbering.map (·.1) = d.labels.map (·.name) ∧
      (∀ (k : Nat) (name : String) (number : Int64), d.numbering[k]? = some (name, number) →
        Counted d.labels k number.toInt ∧ -2 ^ 31 ≤ number.toInt ∧
          number.toInt ≤ 2 ^ 31 - 1 + d.labels.length) ∧
      ∀ before after, d.labels = before ++ after →
        d.numbering = numberFrom (-1) before ++ numberFrom (counter before) after ∧
          -2 ^ 63 ≤ (counter before).toInt ∧ (counter before).toInt + 1 < 2 ^ 63 ∧
          (counter before + 1).toInt = (counter before).toInt + 1 := by
  refine ⟨numberFrom_names (-1) d.labels, ?_, ?_⟩
  · intro k name number hk
    have hlabel : k < d.labels.length := by
      rw [← numberFrom_length (-1) d.labels]
      exact (List.getElem?_eq_some_iff.1 hk).1
    obtain ⟨before, l, after, hsplit, rfl⟩ : ∃ before l after,
        d.labels = before ++ l :: after ∧ before.length = k :=
      ⟨d.labels.take k, d.labels[k], d.labels.drop (k + 1), by simp, by simp; omega⟩
    obtain ⟨-, rfl⟩ := Prod.mk.inj (Option.some.inj (hk.symm.trans (numbering_split hsplit)))
    rw [hsplit] at hlength
    rw [hsplit]
    have hupTo : (before ++ [l]).length ≤ (before ++ l :: after).length := by simp
    obtain ⟨hlow, hhigh⟩ := inReach (Nat.lt_of_le_of_lt hupTo hlength)
    exact ⟨counted hlength, hlow, by omega⟩
  · intro before after hsplit
    have hshorter : before.length < 2 ^ 62 := by
      rw [hsplit, List.length_append] at hlength
      omega
    have hreach := inReach hshorter
    obtain ⟨hlow, hhigh⟩ := hreach.room hshorter
    refine ⟨?_, hlow, hhigh, hreach.toInt_add_one hshorter⟩
    rw [numbering, hsplit, numberFrom_append]
    rfl

/-- A number that goes down, and one beyond the 32-bit range. -/
theorem numbering_exact_level :
    let d : EnumDef :=
      { name := "Level"
        labels := [⟨"high", some 2147483647⟩, ⟨"past", none⟩, ⟨"low", some (-2147483648)⟩,
          ⟨"above", none⟩] }
    d.labels.length < 2 ^ 62 ∧
      d.numbering = [("high", 2147483647), ("past", 2147483648), ("low", -2147483648),
        ("above", -2147483647)] ∧
      Counted d.labels 1 2147483648 ∧ Counted d.labels 3 (-2147483647) ∧
      (counter (d.labels.take 2) + 1).toInt = 2147483649 := by
  intro d
  have hlength : d.labels.length < 2 ^ 62 := by decide
  obtain ⟨-, hnumbers, hcounter⟩ := numbering_exact d hlength
  obtain ⟨-, -, -, hnext⟩ := hcounter _ _ (List.take_append_drop 2 d.labels).symm
  refine ⟨hlength, by decide, (hnumbers 1 "past" 2147483648 (by decide)).1,
    (hnumbers 3 "above" (-2147483647) (by decide)).1, hnext.trans (by decide)⟩

end IdlGen.EnumDef
