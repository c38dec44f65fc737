import Mathlib.Data.List.Forall2

/-!
# Steps that may fail

A chain of steps gives a result only if each step does. The first lemmas take such a chain apart. Then
two chains that go in step are compared: both give results, or both fail (`Related`). Last, a chain may
be there to check things, and fails at the first that is not as it should be (`Vets`).
-/

namespace IdlGen

variable {ε α β : Type}

theorem bind_eq_ok {x : Except ε α} {f : α → Except ε β} {r : β} :
    (x >>= f) = .ok r ↔ ∃ a, x = .ok a ∧ f a = .ok r := by
  cases x with
  | error e => exact ⟨(nomatch ·), fun ⟨_, h, _⟩ => nomatch h⟩
  | ok a => exact ⟨fun h => ⟨a, rfl, h⟩, fun ⟨_, h, hf⟩ => Except.ok.inj h ▸ hf⟩

theorem pure_eq_ok {a r : α} : (pure a : Except ε α) = .ok r ↔ a = r :=
  ⟨Except.ok.inj, congrArg _⟩

theorem map_eq_ok {x : Except ε α} {f : α → β} {r : β} :
    x.map f = .ok r ↔ ∃ a, x = .ok a ∧ f a = r := by
  cases x with
  | error e => exact ⟨(nomatch ·), fun ⟨_, h, _⟩ => nomatch h⟩
  | ok a =>
    exact ⟨fun h => ⟨a, rfl, Except.ok.inj h⟩, fun ⟨_, h, hf⟩ => Except.ok.inj h ▸ congrArg _ hf⟩

/-- A chain of many steps gives what each of them gives. -/
theorem mapM_eq_ok {f : α → Except ε β} {l : List α} {r : List β} :
    l.mapM f = .ok r ↔ List.Forall₂ (fun a b => f a = .ok b) l r := by
  induction l generalizing r with
  | nil => exact pure_eq_ok.trans (by simp [eq_comm])
  | cons a l ih =>
    simp only [List.mapM_cons, bind_eq_ok, pure_eq_ok, ih]
    constructor
    · rintro ⟨b, hb, more, hmore, rfl⟩
      exact .cons hb hmore
    · rintro (_ | ⟨hb, hmore⟩)
      exact ⟨_, hb, _, hmore, rfl⟩

theorem exists_mapM_eq_ok_iff {f : α → Except ε β} {l : List α} :
    (∃ r, l.mapM f = .ok r) ↔ ∀ a ∈ l, ∃ b, f a = .ok b := by
  induction l with
  | nil => exact iff_of_true ⟨[], rfl⟩ fun a ha => absurd ha List.not_mem_nil
  | cons a l ih =>
    rw [List.forall_mem_cons, ← ih]
    simp only [List.mapM_cons, bind_eq_ok, pure_eq_ok]
    constructor
    · rintro ⟨_, b, hb, r, hr, rfl⟩
      exact ⟨⟨b, hb⟩, r, hr⟩
    · rintro ⟨⟨b, hb⟩, r, hr⟩
      exact ⟨_, b, hb, r, hr, rfl⟩

theorem mem_of_forall₂ {R : α → β → Prop} {as : List α} {bs : List β}
    (h : List.Forall₂ R as bs) {b : β} (hb : b ∈ bs) : ∃ a ∈ as, R a b := by
  induction h with
  | nil => exact absurd hb List.not_mem_nil
  | cons hab hrest ih =>
    rcases List.mem_cons.1 hb with rfl | hb
    · exact ⟨_, List.mem_cons_self, hab⟩
    · obtain ⟨a, ha, hab⟩ := ih hb
      exact ⟨a, List.mem_cons_of_mem _ ha, hab⟩

/-- A chain of many steps fails with the error of the first that fails. -/
theorem mapM_of_first_error {f : α → Except ε β} {before : List α} {a : α} {e : ε}
    (hbefore : ∀ x ∈ before, ∃ b, f x = .ok b) (ha : f a = .error e) (after : List α) :
    (before ++ a :: after).mapM f = .error e := by
  induction before with
  | nil =>
    rw [List.nil_append, List.mapM_cons, ha]
    rfl
  | cons x before ih =>
    obtain ⟨⟨b, hx⟩, hmore⟩ := List.forall_mem_cons.1 hbefore
    rw [List.cons_append, List.mapM_cons, hx, ih hmore]
    rfl

/-- If there is only one way to fail, it does not matter which step does. -/
theorem mapM_of_error {f : α → Except ε β} {l : List α} {a : α} {e : ε}
    (honly : ∀ x ∈ l, ∀ e', f x = .error e' → e' = e) (ha : f a = .error e) (hmem : a ∈ l) :
    l.mapM f = .error e := by
  induction l with
  | nil => exact absurd hmem List.not_mem_nil
  | cons x l ih =>
    obtain ⟨hfirst, hmore⟩ := List.forall_mem_cons.1 honly
    rw [List.mapM_cons]
    cases hx : f x with
    | error e' =>
      rw [hfirst e' hx]
      rfl
    | ok b =>
      have hrest : a ∈ l := by
        rcases List.mem_cons.1 hmem with rfl | hrest
        · rw [ha] at hx
          cases hx
        · exact hrest
      rw [ih hmore hrest]
      rfl

/-! ### Chains in step -/

/-- Both give results, which are related, or both fail, with errors that are related. -/
inductive Related (R : ε → ε → Prop) (S : α → β → Prop) : Except ε α → Except ε β → Prop
  | ok {a : α} {b : β} (h : S a b) : Related R S (.ok a) (.ok b)
  | error {e e' : ε} (h : R e e') : Related R S (.error e) (.error e')

namespace Related

variable {γ δ : Type} {R : ε → ε → Prop} {S : α → β → Prop} {T : γ → δ → Prop}

theorem refl (hR : ∀ e, R e e) (x : Except ε α) : Related R Eq x x := by
  cases x with
  | error e => exact .error (hR e)
  | ok a => exact .ok rfl

theorem eq {x y : Except ε α} (h : Related Eq Eq x y) : x = y := by
  cases h with
  | ok h => rw [h]
  | error h => rw [h]

theorem imp {R' : ε → ε → Prop} {x : Except ε α} {y : Except ε β} (h : Related R S x y)
    (hR : ∀ e e', R e e' → R' e e') : Related R' S x y := by
  cases h with
  | ok h => exact .ok h
  | error h => exact .error (hR _ _ h)

theorem bind {x : Except ε α} {y : Except ε β} {f : α → Except ε γ} {g : β → Except ε δ}
    (h : Related R S x y) (hnext : ∀ a b, S a b → Related R T (f a) (g b)) :
    Related R T (x >>= f) (y >>= g) := by
  cases h with
  | ok hab => exact hnext _ _ hab
  | error he => exact .error he

theorem map {x : Except ε α} {y : Except ε β} {f : α → γ} {g : β → δ} (h : Related R S x y)
    (hnext : ∀ a b, S a b → T (f a) (g b)) : Related R T (x.map f) (y.map g) := by
  cases h with
  | ok hab => exact .ok (hnext _ _ hab)
  | error he => exact .error he

/-- The same of steps that take each other's place and give the same. -/
theorem bind_eq {x y : Except ε α} {f g : α → Except ε γ} (h : Related R Eq x y)
    (hnext : ∀ a, Related R Eq (f a) (g a)) : Related R Eq (x >>= f) (y >>= g) := by
  apply h.bind
  rintro a b rfl
  exact hnext a

theorem map_eq {x y : Except ε α} (h : Related R Eq x y) (f : α → γ) :
    Related R Eq (x.map f) (y.map f) := by
  apply h.map
  rintro a b rfl
  rfl

theorem mapM_eq {f : α → Except ε γ} {g : β → Except ε γ} {l : List α} {m : List β}
    (h : List.Forall₂ (fun a b => Related R Eq (f a) (g b)) l m) :
    Related R Eq (l.mapM f) (m.mapM g) := by
  induction h with
  | nil => exact .ok rfl
  | cons hfirst hrest ih =>
    rw [List.mapM_cons, List.mapM_cons]
    apply hfirst.bind_eq
    intro c
    apply ih.bind_eq
    intro cs
    exact .ok rfl

/-- The same of a list of which each item is changed. -/
theorem mapM_map {f : α → Except ε γ} {g : β → Except ε γ} {change : α → β} {l : List α}
    (h : ∀ a ∈ l, Related R Eq (f a) (g (change a))) :
    Related R Eq (l.mapM f) ((l.map change).mapM g) := by
  apply mapM_eq
  rw [List.forall₂_map_right_iff, List.forall₂_same]
  exact h

end Related

/-! ### Chains that check -/

variable {ι : Type}

/-- The steps check the things in a list one after the other. They give a result if all are good, and
otherwise fail with what is wrong with the first that is not. -/
inductive Vets (good : ι → Prop) (bad : ι → ε → Prop) : List ι → Except ε α → Prop
  | pass {l : List ι} (h : ∀ i ∈ l, good i) (a : α) : Vets good bad l (.ok a)
  | fail {before : List ι} {i : ι} {e : ε} (hbefore : ∀ x ∈ before, good x) (hi : bad i e)
      (after : List ι) : Vets good bad (before ++ i :: after) (.error e)

namespace Vets

variable {good : ι → Prop} {bad : ι → ε → Prop} {l m : List ι} {i : ι} {x : Except ε α}

theorem met (h : good i) (a : α) : Vets good bad [i] (.ok a : Except ε α) :=
  .pass (List.forall_mem_singleton.2 h) a

theorem unmet {e : ε} (h : bad i e) : Vets good bad [i] (.error e : Except ε α) := by
  rw [← List.nil_append [i]]
  exact .fail (fun _ hx => absurd hx List.not_mem_nil) h []

theorem good_of_ok {a : α} (h : Vets good bad l (.ok a)) : ∀ i ∈ l, good i := by
  cases h with
  | pass h => exact h

theorem bad_of_error {e : ε} (h : Vets good bad l (.error e : Except ε α)) :
    ∃ before i after, l = before ++ i :: after ∧ (∀ x ∈ before, good x) ∧ bad i e := by
  cases h with
  | fail hbefore hi after => exact ⟨_, _, after, rfl, hbefore, hi⟩

/-- It is the first that is not good that is reported. -/
theorem error_of_first {before after : List ι} (h : Vets good bad (before ++ i :: after) x)
    (hbefore : ∀ j ∈ before, good j) (hi : ¬ good i) (hbad : ∀ j e, bad j e → ¬ good j) :
    ∃ e, x = .error e ∧ bad i e := by
  generalize hl : before ++ i :: after = l at h
  cases h with
  | pass h => exact absurd (h i (hl ▸ List.mem_append_right _ List.mem_cons_self)) hi
  | @fail before' j e hbefore' hj after' =>
    refine ⟨e, rfl, ?_⟩
    rcases List.append_eq_append_iff.1 hl with ⟨more, rfl, hrest⟩ | ⟨more, rfl, hrest⟩
    · cases more with
      | nil => exact (List.cons.inj hrest).1 ▸ hj
      | cons k more =>
        obtain ⟨rfl, -⟩ := List.cons.inj hrest
        exact absurd (hbefore' i (List.mem_append_right _ List.mem_cons_self)) hi
    · cases more with
      | nil => exact (List.cons.inj hrest).1 ▸ hj
      | cons k more =>
        obtain ⟨rfl, -⟩ := List.cons.inj hrest
        exact absurd (hbefore j (List.mem_append_right _ List.mem_cons_self)) (hbad j e hj)

theorem good_of_met {a : α} (h : Vets good bad [i] (.ok a : Except ε α)) : good i :=
  h.good_of_ok i List.mem_cons_self

theorem bad_of_unmet {e : ε} (h : Vets good bad [i] (.error e : Except ε α)) : bad i e := by
  obtain ⟨before, j, after, hsplit, -, hj⟩ := h.bad_of_error
  cases before with
  | nil =>
    obtain ⟨rfl, -⟩ := List.cons.inj hsplit
    exact hj
  | cons first before => simp at hsplit

theorem map (h : Vets good bad l x) (f : α → β) : Vets good bad l (x.map f) := by
  cases h with
  | pass h a => exact .pass h (f a)
  | fail hbefore hi after => exact .fail hbefore hi after

theorem bind {f : α → Except ε β} (h : Vets good bad l x) (hnext : ∀ a, Vets good bad m (f a)) :
    Vets good bad (l ++ m) (x >>= f) := by
  cases h with
  | fail hbefore hi after =>
    rw [List.append_assoc, List.cons_append]
    exact .fail hbefore hi _
  | pass h a =>
    have hrest := hnext a
    change Vets good bad (l ++ m) (f a)
    generalize f a = y at hrest ⊢
    cases hrest with
    | pass h' b => exact .pass (List.forall_mem_append.2 ⟨h, h'⟩) b
    | fail hbefore hi after =>
      rw [← List.append_assoc]
      exact .fail (List.forall_mem_append.2 ⟨h, hbefore⟩) hi after

/-- A thing that is good needs no step. -/
theorem behind (hi : good i) (h : Vets good bad l x) : Vets good bad (i :: l) x :=
  (met hi ()).bind fun _ => h

/-- Last steps that check nothing more. -/
theorem andThen {f : α → Except ε β} (h : Vets good bad l x)
    (hnext : ∀ a, Vets good bad [] (f a)) : Vets good bad l (x >>= f) := by
  have hboth := h.bind hnext
  rwa [List.append_nil] at hboth

theorem nothing (a : α) : Vets good bad [] (pure a : Except ε α) :=
  .pass (fun _ hi => absurd hi List.not_mem_nil) a

theorem mapM {γ : Type} {f : γ → Except ε α} {things : γ → List ι} {cs : List γ}
    (h : ∀ c ∈ cs, Vets good bad (things c) (f c)) :
    Vets good bad (cs.flatMap things) (cs.mapM f) := by
  induction cs with
  | nil => exact nothing []
  | cons c cs ih =>
    obtain ⟨hfirst, hrest⟩ := List.forall_mem_cons.1 h
    rw [List.flatMap_cons, List.mapM_cons]
    apply hfirst.bind
    intro a
    apply (ih hrest).andThen
    intro as
    exact nothing _

/-- The things in a list as the parts of one. -/
theorem whole {κ : Type} {good' : κ → Prop} {bad' : κ → ε → Prop} {k : κ}
    (h : Vets good bad l x) (hgood : (∀ i ∈ l, good i) → good' k)
    (hbad : ∀ before i after e, l = before ++ i :: after → (∀ x ∈ before, good x) → bad i e →
      bad' k e) : Vets good' bad' [k] x := by
  cases h with
  | pass h a => exact .met (hgood h) a
  | fail hbefore hi after => exact .unmet (hbad _ _ after _ rfl hbefore hi)

end Vets

end IdlGen
