import IdlGen.Keyed
import IdlGen.Lisp.Backend

/-!
# Registry of backends

Backends are found by id. Registering an id again replaces its backend.
-/

namespace IdlGen

structure Entry (σ : Type) [Carrier σ] where
  id : String
  /-- The target language, for people to read. -/
  description : String
  backend : Backend σ

structure Registry (σ : Type) [Carrier σ] where
  entries : Keyed (Entry σ)

namespace Registry

variable {σ : Type} [Carrier σ]

def register (r : Registry σ) (id description : String) (backend : Backend σ) : Registry σ :=
  ⟨r.entries.insert id ⟨id, description, backend⟩⟩

/-- The registry of the backends that come with the library. -/
def default : Registry σ := register ⟨∅⟩ Lisp.language "Common Lisp" Lisp.backend

def get? (r : Registry σ) (id : String) : Option (Entry σ) := r.entries.get? id

def ids (r : Registry σ) : List String := r.entries.keys

def describe? (r : Registry σ) (id : String) : Option String :=
  (r.get? id).map Entry.description

def backend? (r : Registry σ) (id : String) : Option (Backend σ) := (r.get? id).map Entry.backend

end Registry

end IdlGen
