import IdlGen.Proofs.Lisp.Names
import IdlGen.Proofs.Lisp.Rebuilding

/-!
# Typedefs leave no trace

A program can do without typedefs: what stands behind them can be written in their place, at any depth of
any type, and their declarations left out. A run of the Lisp backend then leaves the same on both streams,
and ends alike. Only where an error describes a container can the names of typedefs be missed.
-/

namespace IdlGen

open Lisp

/-! ### Programs without typedefs -/

theorem Ty.not_mentions_typedef_resolved (t : Ty) (d : Typedef) :
    ¬ t.resolved.Mentions (.typedef d) := by
  induction t with
  | base b | enum d' =>
    intro h
    cases h
  | record kind d' ih =>
    rw [Ty.resolved, Ty.rebuild_record]
    intro h
    cases h with
    | field hf h =>
      obtain ⟨f, hfield, rfl⟩ := List.mem_map.1 hf
      exact ih f hfield h
  | list element ih =>
    intro h
    cases h with
    | list h => exact ih h
  | set element ih =>
    intro h
    cases h with
    | set h => exact ih h
  | map key value ihKey ihValue =>
    intro h
    cases h with
    | key h => exact ihKey h
    | value h => exact ihValue h
  | typedef d' ih =>
    rw [Ty.resolved_typedef]
    exact ih

/-- The types in the signatures of a service's methods and of those that it extends. -/
inductive Service.Uses : Service → Ty → Prop where
  | argument {s : Service} {m : Method} {f : Field} : m ∈ s.methods → f ∈ m.args → Uses s f.type
  | result {s : Service} {m : Method} : m ∈ s.methods → Uses s m.returns
  | exception {s : Service} {m : Method} {f : Field} :
      m ∈ s.methods → f ∈ m.exceptions → Uses s f.type
  | base {s base : Service} {t : Ty} : s.base = some base → Uses base t → Uses s t

/-- The types that something is declared with. -/
inductive Definition.Uses : Definition → Ty → Prop where
  | target (d : Typedef) : Uses (.typedef d) d.target
  | field {kind : RecordKind} {d : Record} {f : Field} : f ∈ d.fields → Uses (.record kind d) f.type
  | service {s : Service} {t : Ty} : s.Uses t → Uses (.service s) t
  | constant (c : Constant) : Uses (.constant c) c.type

theorem Service.Uses.of_mapTypes {g : Ty → Ty} {s : Service} {t : Ty}
    (h : (s.mapMethods (Method.mapTypes g)).Uses t) : ∃ u, t = g u := by
  induction s with
  | service s ih =>
    obtain ⟨name, owner, base, methods, doc⟩ := s
    cases h with
    | argument hm hf =>
      obtain ⟨m, -, rfl⟩ := List.mem_map.1 hm
      obtain ⟨f, -, rfl⟩ := List.mem_map.1 hf
      exact ⟨f.type, rfl⟩
    | result hm =>
      obtain ⟨m, -, rfl⟩ := List.mem_map.1 hm
      exact ⟨m.returns, rfl⟩
    | exception hm hf =>
      obtain ⟨m, -, rfl⟩ := List.mem_map.1 hm
      obtain ⟨f, -, rfl⟩ := List.mem_map.1 hf
      exact ⟨f.type, rfl⟩
    | base hbase h =>
      cases base with
      | none => cases hbase
      | some s =>
        obtain rfl := Option.some.inj hbase
        exact ih s rfl h

theorem Definition.Uses.of_mapTypes {g : Ty → Ty} {d : Definition} {t : Ty}
    (h : (d.mapTypes g).Uses t) : ∃ u, t = g u := by
  cases d with
  | typedef d =>
    cases h with
    | target => exact ⟨d.target, rfl⟩
  | enum d => cases h
  | record kind d =>
    cases h with
    | field hf =>
      obtain ⟨f, -, rfl⟩ := List.mem_map.1 hf
      exact ⟨f.type, rfl⟩
  | service s =>
    cases h with
    | service h => exact h.of_mapTypes
  | constant c =>
    cases h with
    | constant => exact ⟨c.type, rfl⟩

/-- No typedef is declared, and none is used, also inside of types. -/
def Program.WithoutTypedefs (p : Program) : Prop :=
  ∀ declared ∈ p.definitions, (∀ d, declared ≠ .typedef d) ∧
    ∀ t, declared.Uses t → ∀ d, ¬ t.Mentions (.typedef d)

theorem Program.withoutTypedefs_resolved (p : Program) : p.resolved.WithoutTypedefs := by
  have hmapped : ∀ (d : Definition) (t : Ty), (d.mapTypes Ty.resolved).Uses t →
      ∀ d', ¬ t.Mentions (.typedef d') := by
    intro d t h
    obtain ⟨u, rfl⟩ := h.of_mapTypes
    exact u.not_mentions_typedef_resolved
  intro declared hdeclared
  obtain ⟨d, -, hd⟩ := List.mem_filterMap.1 hdeclared
  cases d with
  | typedef d => cases hd
  | enum d =>
    obtain rfl := Option.some.inj hd
    exact ⟨nofun, fun t h => nomatch h⟩
  | record kind d =>
    obtain rfl := Option.some.inj hd
    exact ⟨nofun, hmapped (.record kind d)⟩
  | service s =>
    obtain rfl := Option.some.inj hd
    exact ⟨nofun, hmapped (.service s)⟩
  | constant c =>
    obtain rfl := Option.some.inj hd
    exact ⟨nofun, hmapped (.constant c)⟩

/-! ### Their runs -/

namespace Lisp

open EmitError (Respelled)

theorem neutral_resolving (current : ProgramInfo) :
    Rebuilding.resolving.Neutral current current where
  enum_name _ := rfl
  record_name _ := rfl
  recordName _ := rfl
  fields _ := List.forall₂_same.2 fun _ _ => ⟨rfl, rfl⟩
  typedef _ := .inl rfl

theorem unmoved_resolved (info : ProgramInfo) :
    Unmoved (Respelled .resolving) info Definition.resolved? := by
  have hform := form_mapTypes (discreet_rebuild (neutral_resolving info))
  constructor
  case dropped =>
    intro d hd
    cases d with
    | typedef d => rfl
    | enum d | record kind d | service s | constant c => cases hd
  case sameStream =>
    intro d d' hd
    cases d with
    | typedef d => cases hd
    | enum d | record kind d | service s | constant c =>
      obtain rfl := Option.some.inj hd
      rfl
  case sameForm =>
    intro d d' hd
    cases d with
    | typedef d => cases hd
    | enum d =>
      obtain rfl := Option.some.inj hd
      exact hform (.enum d)
    | record kind d =>
      obtain rfl := Option.some.inj hd
      exact hform (.record kind d)
    | service s =>
      obtain rfl := Option.some.inj hd
      exact hform (.service s)
    | constant c =>
      obtain rfl := Option.some.inj hd
      exact hform (.constant c)

/-- A program and the same without typedefs leave the same on the streams. Their runs both succeed, or
stop at the same declaration, with errors that differ at most in what they call a container. -/
theorem run_resolved (p : Program) :
    p.resolved.WithoutTypedefs ∧
    (∀ s, run p = .ok () s → ∃ s', run p.resolved = .ok () s' ∧ s'.contents = s.contents) ∧
    (∀ e s, run p = .error e s → ∃ e' s', run p.resolved = .error e' s' ∧
      s'.contents = s.contents ∧ Respelled .resolving e e' ∧
      ∃ before d d', d.resolved? = some d' ∧ StopsAt p before d e ∧
        StopsAt p.resolved (before.filterMap Definition.resolved?) d' e') := by
  refine ⟨p.withoutTypedefs_resolved, ?_, ?_⟩
  · intro s hrun
    exact (unmoved_resolved p.info).run_ok hrun
  · intro e s hrun
    exact (unmoved_resolved p.info).run_error hrun

end Lisp

end IdlGen
