import IdlGen.Lisp.Typespec
import IdlGen.Proofs.Lisp.TextReading
import IdlGen.Proofs.Schema.Induction

/-!
# Typespecs read back

A typespec is read as the tree of its type: a base type is an atom, containers are lists of their
parts, and enums and records are named by strings. Typedefs leave no trace.
-/

namespace IdlGen.Lisp

open Reader

/-- The tree of a typespec. -/
def typeTree (current : ProgramInfo) : Ty → Sexp
  | .base b => .atom b.name
  | .enum d => .list [.atom "enum", .string d.name]
  | .record _ d => .list [.atom "struct", .string (recordName d current)]
  | .list element => .list [.atom "list", typeTree current element]
  | .set element => .list [.atom "set", typeTree current element]
  | .map key value => .list [.atom "map", typeTree current key, typeTree current value]
  | .typedef ⟨_, _, target, _⟩ => typeTree current target

/-- A head and one more part, in parentheses. -/
theorem yields_headed (head : String) {part : String} (hhead : Atomic head) {form : Sexp}
    (hpart : Yields (.text part) [form]) :
    Yields (.text ("(" ++ head ++ " " ++ part ++ ")")) [.list [.atom head, form]] := by
  refine ((yields_atom hhead).append (blank_space.append hpart)).parens.congr fun s => ?_
  simp only [parens, readLayout_append, readLayout_text_append, Option.bind_assoc]

theorem yields_recordTypespec {d : Record} (hd : d.PlainNames) (kind : RecordKind)
    (current : ProgramInfo) :
    Yields (.text (typespec current (.record kind d)))
      [.list [.atom "struct", .string (recordName d current)]] :=
  yields_headed "struct" (by decide) (yields_symbol (atomic_recordName hd current).2)

theorem yields_typespec (current : ProgramInfo) {t : Ty} (ht : t.PlainNames) :
    Yields (.text (typespec current t)) [typeTree current t] := by
  induction t with
  | base b =>
    have hname : Atomic b.name := by cases b <;> decide
    exact yields_atom hname
  | enum d =>
    exact yields_headed "enum" (by decide)
      (yields_symbol (Atomic.of_plain (ht.2 d (.self _))).2)
  | record kind d => exact yields_recordTypespec (ht.1 kind d (.self _)) kind current
  | list element ih => exact yields_headed "list" (by decide) (ih (ht.of_mentions .list))
  | set element ih => exact yields_headed "set" (by decide) (ih (ht.of_mentions .set))
  | map key value ihKey ihValue =>
    have hinner := (yields_atom (t := "map") (by decide)).append
      (blank_space.append ((ihKey (ht.of_mentions .key)).append
        (blank_space.append (ihValue (ht.of_mentions .value)))))
    refine hinner.parens.congr fun s => ?_
    have hsplit : "(map " = "(" ++ ("map" ++ " ") := rfl
    rw [typespec, hsplit]
    simp only [parens, readLayout_append, readLayout_text_append, Option.bind_assoc]
  | typedef d ih => exact ih (ht.of_mentions .typedef)

end IdlGen.Lisp
