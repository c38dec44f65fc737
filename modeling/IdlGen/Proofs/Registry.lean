import IdlGen.Proofs.Keyed
import IdlGen.Proofs.Text.Utf8
import IdlGen.Workspace.Build
import Mathlib.Logic.Basic

/-!
# Registrations, one after the other

Whatever has been registered, a registry answers for each id from its latest registration. The ids are
listed once each and in ascending order, which is the order of their bytes as well. Two registrations of
different ids may be made in either order.
-/

namespace IdlGen

namespace Registry

variable {σ : Type} [Carrier σ]

/-- Makes these registrations in their order. -/
def registerAll (r : Registry σ) (registrations : List (Entry σ)) : Registry σ :=
  registrations.foldl (fun r e => r.register e.id e.description e.backend) r

/-- The registration that comes with the library. -/
def builtIn : Entry σ := ⟨"cl", "Common Lisp", Lisp.backend⟩

/-- The latest registration of an id. -/
def latest? (registrations : List (Entry σ)) (id : String) : Option (Entry σ) :=
  registrations.reverse.find? fun e => e.id = id

theorem get?_register (r : Registry σ) (e : Entry σ) (id : String) :
    (r.register e.id e.description e.backend).get? id = if id = e.id then some e else r.get? id :=
  Keyed.get?_insert r.entries e.id id e

theorem latest?_cons (e : Entry σ) (registrations : List (Entry σ)) (id : String) :
    latest? (e :: registrations) id =
      (latest? registrations id).or (if id = e.id then some e else none) := by
  rw [latest?, List.reverse_cons, List.find?_append, ← latest?, List.find?_singleton]
  simp only [decide_eq_true_eq, @eq_comm String]

/-- What is asked of a registry, its latest registration answers. -/
theorem get?_registerAll (r : Registry σ) (registrations : List (Entry σ)) (id : String) :
    (r.registerAll registrations).get? id = (latest? registrations id).or (r.get? id) := by
  induction registrations generalizing r with
  | nil => rfl
  | cons e registrations ih =>
    have hrest := ih (r.register e.id e.description e.backend)
    rw [get?_register] at hrest
    refine hrest.trans ?_
    rw [latest?_cons, Option.or_assoc]
    split <;> rfl

theorem get?_default (id : String) :
    (default : Registry σ).get? id = if id = (builtIn : Entry σ).id then some builtIn else none :=
  get?_register ⟨∅⟩ builtIn id

/-- The default registry answers like a registration before all others. -/
theorem get?_default_registerAll (registrations : List (Entry σ)) (id : String) :
    (default.registerAll registrations).get? id = latest? (builtIn :: registrations) id := by
  rw [get?_registerAll, get?_default, latest?_cons]

theorem id_of_latest? {registrations : List (Entry σ)} {id : String} {e : Entry σ}
    (h : latest? registrations id = some e) : e.id = id := by
  simpa using List.find?_some h

theorem latest?_eq_none_iff {registrations : List (Entry σ)} {id : String} :
    latest? registrations id = none ↔ ∀ e ∈ registrations, e.id ≠ id := by
  simp [latest?]

theorem not_mem_ids_iff {r : Registry σ} {id : String} : id ∉ r.ids ↔ r.get? id = none :=
  Keyed.get?_eq_none_iff.symm

theorem mem_ids_default_registerAll {registrations : List (Entry σ)} {id : String} :
    id ∈ (default.registerAll registrations).ids ↔ id = "cl" ∨ ∃ e ∈ registrations, e.id = id := by
  rw [← not_iff_not, not_mem_ids_iff, get?_default_registerAll, latest?_eq_none_iff,
    List.forall_mem_cons, not_or, not_exists]
  exact and_congr ne_comm (forall_congr' fun e => not_and.symm)

theorem ids_ascending (r : Registry σ) :
    r.ids.Pairwise fun a b => Utf8.encode a.toList < Utf8.encode b.toList :=
  List.pairwise_map.2 (r.entries.ascending.imp Utf8.encode_lt)

/-! ### Order of registrations -/

theorem register_comm (r : Registry σ) {e e' : Entry σ} (h : e.id ≠ e'.id) :
    (r.register e.id e.description e.backend).register e'.id e'.description e'.backend =
      (r.register e'.id e'.description e'.backend).register e.id e.description e.backend :=
  congrArg Registry.mk (Keyed.insert_comm r.entries h e e')

theorem registerAll_swap (r : Registry σ) {e e' : Entry σ} (h : e.id ≠ e'.id)
    (before behind : List (Entry σ)) :
    r.registerAll (before ++ e :: e' :: behind) = r.registerAll (before ++ e' :: e :: behind) := by
  simp only [registerAll, List.foldl_append, List.foldl_cons, register_comm _ h]

/-! ### Backends for builds -/

theorem build_backend (r : Registry σ) (id : String) (fs : FileSystem) :
    Build.backend r id fs =
      match r.get? id with
      | some e => .ok e.backend fs
      | none => .error (.unknownGenerator id) fs := by
  rw [Build.backend, backend?]
  cases r.get? id <;> rfl

theorem build_backend_eq_error_iff {r : Registry σ} {id : String} {fs fs' : FileSystem}
    {error : BuildError} :
    Build.backend r id fs = .error error fs' ↔
      id ∉ r.ids ∧ error = .unknownGenerator id ∧ fs' = fs := by
  rw [build_backend, not_mem_ids_iff]
  cases r.get? id with
  | none => simp [eq_comm]
  | some e => simp

/-- After any registrations, a registry lists the default id and the registered ones, once each and in
ascending order of their bytes. For each of them it answers from its latest registration, and a build
has no backend under any other id. Registrations of different ids may change places. -/
theorem registered_answers (registrations : List (Entry σ)) :
    let r := default.registerAll registrations
    let answer := latest? (builtIn :: registrations)
    (r.ids.Pairwise fun a b => Utf8.encode a.toList < Utf8.encode b.toList) ∧
    (∀ id, id ∈ r.ids ↔ id = "cl" ∨ ∃ e ∈ registrations, e.id = id) ∧
    (∀ id, r.get? id = answer id ∧ (∀ e, r.get? id = some e → e.id = id)) ∧
    (∀ id, r.describe? id = (answer id).map Entry.description) ∧
    (∀ id fs, Build.backend r id fs =
      match answer id with
      | some e => .ok e.backend fs
      | none => .error (.unknownGenerator id) fs) ∧
    (∀ id fs error fs', Build.backend r id fs = .error error fs' ↔
      id ∉ r.ids ∧ error = .unknownGenerator id ∧ fs' = fs) ∧
    ∀ before e e' behind, registrations = before ++ e :: e' :: behind → e.id ≠ e'.id →
      default.registerAll (before ++ e' :: e :: behind) = r := by
  intro r answer
  have hget : ∀ id, r.get? id = answer id := get?_default_registerAll registrations
  refine ⟨ids_ascending r, fun id => mem_ids_default_registerAll, fun id => ⟨hget id, fun e he => ?_⟩,
    fun id => ?_, fun id fs => ?_, fun id fs error fs' => build_backend_eq_error_iff, ?_⟩
  · exact id_of_latest? ((hget id).symm.trans he)
  · rw [describe?, hget]
  · rw [build_backend, hget]
  · rintro before e e' behind rfl hids
    exact (registerAll_swap default hids before behind).symm

/-- Another backend and another description of the default one, as they are listed and described. -/
example :
    let r : Registry Sink := default.registerAll
      [⟨"cl", "Common Lisp (again)", Lisp.backend⟩, ⟨"alisp", "Another Lisp", Lisp.backend⟩]
    r.ids = ["alisp", "cl"] ∧ r.describe? "cl" = some "Common Lisp (again)" := by
  decide

end Registry

end IdlGen
