import IdlGen.Schema.Service

/-!
# Induction over literals, types and services

Literals hold lists of literals, and types hold records that hold lists of fields that hold types. The
principles here go through those lists: what is to be shown of a literal or type may be assumed of all
that it holds. By such an induction the true type of a type is never a typedef.
-/

namespace IdlGen

@[elab_as_elim, induction_eliminator]
theorem Literal.induction {P : Literal → Prop} (integer : ∀ n, P (.integer n))
    (double : ∀ x, P (.double x)) (string : ∀ s, P (.string s))
    (list : ∀ items, (∀ item ∈ items, P item) → P (.list items))
    (map : ∀ entries, (∀ entry ∈ entries, P entry.1 ∧ P entry.2) → P (.map entries))
    (v : Literal) : P v := by
  refine Literal.rec (motive_1 := P) (motive_2 := fun items => ∀ item ∈ items, P item)
    (motive_3 := fun entries => ∀ entry ∈ entries, P entry.1 ∧ P entry.2)
    (motive_4 := fun entry => P entry.1 ∧ P entry.2)
    integer double string list map ?_ ?_ ?_ ?_ ?_ v
  · exact fun item h => absurd h List.not_mem_nil
  · exact fun item items hitem hitems => List.forall_mem_cons.2 ⟨hitem, hitems⟩
  · exact fun entry h => absurd h List.not_mem_nil
  · exact fun entry entries hentry hentries => List.forall_mem_cons.2 ⟨hentry, hentries⟩
  · exact fun key value hkey hvalue => ⟨hkey, hvalue⟩

@[elab_as_elim, induction_eliminator]
theorem Ty.induction {P : Ty → Prop} (base : ∀ b, P (.base b)) (enum : ∀ d, P (.enum d))
    (record : ∀ kind (d : Record), (∀ f ∈ d.fields, P f.type) → P (.record kind d))
    (list : ∀ element, P element → P (.list element))
    (set : ∀ element, P element → P (.set element))
    (map : ∀ key value, P key → P value → P (.map key value))
    (typedef : ∀ d : Typedef, P d.target → P (.typedef d)) (t : Ty) : P t := by
  refine Ty.rec (motive_1 := P) (motive_2 := fun d => ∀ f ∈ d.fields, P f.type)
    (motive_3 := fun d => P d.target) (motive_4 := fun fields => ∀ f ∈ fields, P f.type)
    (motive_5 := fun f => P f.type)
    base enum record list set map typedef ?_ ?_ ?_ ?_ ?_ t
  · exact fun name owner fields doc hfields => hfields
  · exact fun name owner target doc htarget => htarget
  · exact fun f h => absurd h List.not_mem_nil
  · exact fun f fields hf hfields => List.forall_mem_cons.2 ⟨hf, hfields⟩
  · exact fun id name type default doc htype => htype

@[elab_as_elim, induction_eliminator]
theorem Service.induction {P : Service → Prop}
    (service : ∀ s : Service, (∀ base, s.base = some base → P base) → P s) (s : Service) : P s := by
  refine Service.rec (motive_1 := P) (motive_2 := fun held => ∀ base, held = some base → P base)
    ?_ ?_ ?_ s
  · exact fun name owner base methods doc hbase => service ⟨name, owner, base, methods, doc⟩ hbase
  · exact fun base h => nomatch h
  · exact fun s hs base h => Option.some.inj h ▸ hs

/-! ### True types -/

namespace Ty

theorem trueType_typedef (d : Typedef) : (typedef d).trueType = d.target.trueType := by
  obtain ⟨name, owner, target, doc⟩ := d
  rfl

/-- Behind all typedefs there is none. -/
theorem trueType_ne_typedef (t : Ty) (d : Typedef) : t.trueType ≠ typedef d := by
  induction t with
  | typedef d' ih =>
    rw [trueType_typedef]
    exact ih
  | base b | enum d' | record kind d' | list element | set element | map key value =>
    intro h
    cases h

theorem trueType_trueType (t : Ty) : t.trueType.trueType = t.trueType := by
  induction t with
  | typedef d ih =>
    rw [trueType_typedef]
    exact ih
  | base b | enum d | record kind d | list element | set element | map key value => rfl

end Ty

end IdlGen
