import IdlGen.Keyed

/-!
# Maps from their entries

Entries that are written in ascending order go to the end, one behind the other. So a map is what
writing its entries makes. Maps in which the same is found under each key are equal.
-/

namespace IdlGen.Keyed

variable {α : Type}

theorem put_behind {key : String} {l : List (String × α)} (h : ∀ entry ∈ l, entry.1 < key)
    (value : α) : put key value l = l ++ [(key, value)] := by
  induction l with
  | nil => rfl
  | cons head rest ih =>
    obtain ⟨hhead, hrest⟩ := List.forall_mem_cons.1 h
    obtain ⟨other, old⟩ := head
    have hless : other < key := hhead
    have hdiffers : key ≠ other := by
      rintro rfl
      exact String.lt_irrefl _ hless
    rw [put, if_neg hdiffers, if_neg (String.lt_asymm hless), ih hrest]
    rfl

theorem entries_foldl_insert (m : Keyed α) {l : List (String × α)}
    (h : (m.entries ++ l).Pairwise (fun a b => a.1 < b.1)) :
    (l.foldl (fun m entry => m.insert entry.1 entry.2) m).entries = m.entries ++ l := by
  induction l generalizing m with
  | nil => exact (List.append_nil _).symm
  | cons entry l ih =>
    have hentries : (m.insert entry.1 entry.2).entries = m.entries ++ [entry] :=
      put_behind (fun other hother =>
        (List.pairwise_append.1 h).2.2 other hother entry List.mem_cons_self) entry.2
    have hshift : m.entries ++ entry :: l = (m.entries ++ [entry]) ++ l :=
      List.append_cons m.entries entry l
    rw [List.foldl_cons, ih, hentries, hshift]
    rwa [hentries, ← hshift]

/-- A map is what its entries make. -/
theorem ofList_entries (m : Keyed α) : ofList m.entries = m := by
  apply ext
  exact entries_foldl_insert empty m.ascending

theorem lookup_of_below {key : String} {l : List (String × α)} (h : ∀ entry ∈ l, key < entry.1) :
    l.lookup key = none := by
  rw [List.lookup_eq_none_iff]
  intro entry hentry
  have hne : key ≠ entry.1 := fun heq => String.lt_irrefl _ (heq ▸ h entry hentry)
  simpa using hne

theorem get?_eq_none_iff {m : Keyed α} {key : String} : m.get? key = none ↔ key ∉ m.keys := by
  rw [get?, List.lookup_eq_none_iff, keys, List.mem_map]
  constructor
  · rintro h ⟨entry, hentry, rfl⟩
    simpa using h entry hentry
  · intro h entry hentry
    have hkey : key ≠ entry.1 := fun heq => h ⟨entry, hentry, heq.symm⟩
    simpa using hkey

/-- A list in ascending order does not begin with a key that another one does not have. -/
theorem not_lt_of_lookup {a b : String × α} {l m : List (String × α)}
    (hm : (b :: m).Pairwise (fun a b => a.1 < b.1)) (h : (a :: l).lookup a.1 = (b :: m).lookup a.1) :
    ¬a.1 < b.1 := by
  intro hless
  have hbelow : ∀ entry ∈ b :: m, a.1 < entry.1 := by
    obtain ⟨hb, -⟩ := List.pairwise_cons.1 hm
    exact List.forall_mem_cons.2 ⟨hless, fun entry hentry => String.lt_trans hless (hb entry hentry)⟩
  rw [lookup_of_below hbelow, List.lookup_cons, beq_self_eq_true] at h
  cases h

/-- Entries in ascending order are determined by what is found under each key. -/
theorem entries_eq_of_lookup {l m : List (String × α)} (hl : l.Pairwise (fun a b => a.1 < b.1))
    (hm : m.Pairwise (fun a b => a.1 < b.1)) (h : ∀ key, l.lookup key = m.lookup key) : l = m := by
  induction l generalizing m with
  | nil =>
    cases m with
    | nil => rfl
    | cons b m =>
      have hfound := h b.1
      rw [List.lookup_cons, beq_self_eq_true] at hfound
      cases hfound
  | cons a l ih =>
    cases m with
    | nil =>
      have hfound := h a.1
      rw [List.lookup_cons, beq_self_eq_true] at hfound
      cases hfound
    | cons b m =>
      obtain ⟨key, value⟩ := a
      obtain ⟨other, held⟩ := b
      have hkeys : key = other := Decidable.byContradiction fun hne =>
        have hnotLess := not_lt_of_lookup hl (h other).symm
        not_lt_of_lookup hm (h key) (Std.lt_of_le_of_ne (String.not_lt.1 hnotLess) hne)
      subst hkeys
      have hfirst := h key
      simp only [List.lookup_cons, beq_self_eq_true, Option.some.injEq] at hfirst
      obtain ⟨hbelow, hl⟩ := List.pairwise_cons.1 hl
      obtain ⟨hbelow', hm⟩ := List.pairwise_cons.1 hm
      have hrest : ∀ k, l.lookup k = m.lookup k := by
        intro k
        by_cases hk : k = key
        · rw [hk, lookup_of_below hbelow, lookup_of_below hbelow']
        · have hboth := h k
          rwa [List.lookup_cons, List.lookup_cons, beq_false_of_ne hk] at hboth
      rw [hfirst, ih hl hm hrest]

theorem ext_get? {m n : Keyed α} (h : ∀ key, m.get? key = n.get? key) : m = n :=
  ext (entries_eq_of_lookup m.ascending n.ascending h)

/-- Entries under different keys may be written in either order. -/
theorem insert_comm (m : Keyed α) {key other : String} (hkeys : key ≠ other) (value held : α) :
    (m.insert key value).insert other held = (m.insert other held).insert key value := by
  apply ext_get?
  intro k
  simp only [get?_insert]
  by_cases hk : k = key
  · subst hk
    simp [hkeys]
  · simp [hk]

end IdlGen.Keyed
