/-!
# Maps with keys in order

A map from texts is the list of its entries in strictly ascending order of keys, so two maps with
the same entries are equal. Texts compare by code points, which is also the order of their UTF-8
bytes. Writing to a key replaces what was there.
-/

namespace IdlGen

/-- Entries in strictly ascending order of keys. -/
structure Keyed (α : Type) where
  entries : List (String × α)
  ascending : entries.Pairwise (fun a b => a.1 < b.1)

namespace Keyed

variable {α : Type}

@[ext] theorem ext {m n : Keyed α} (h : m.entries = n.entries) : m = n := by
  cases m
  cases n
  simpa using h

instance [DecidableEq α] : DecidableEq (Keyed α) := fun m n =>
  if h : m.entries = n.entries then isTrue (ext h)
  else isFalse fun e => h (congrArg entries e)

def empty : Keyed α := ⟨[], .nil⟩

instance : EmptyCollection (Keyed α) := ⟨empty⟩

instance : Inhabited (Keyed α) := ⟨empty⟩

/-- Writes an entry into a list of entries, at its place in the order. -/
def put (key : String) (value : α) : List (String × α) → List (String × α)
  | [] => [(key, value)]
  | (other, old) :: rest =>
    if key = other then (key, value) :: rest
    else if key < other then (key, value) :: (other, old) :: rest
    else (other, old) :: put key value rest

theorem mem_put {key : String} {value : α} {entry : String × α} {l : List (String × α)}
    (h : entry ∈ put key value l) : entry = (key, value) ∨ entry ∈ l := by
  induction l with
  | nil => simpa [put] using h
  | cons head rest ih =>
    obtain ⟨other, old⟩ := head
    simp only [put] at h
    split at h
    · rcases List.mem_cons.1 h with same | older
      · exact .inl same
      · exact .inr (List.mem_cons_of_mem _ older)
    · split at h
      · simpa using h
      · rcases List.mem_cons.1 h with same | older
        · exact .inr (same ▸ List.mem_cons_self)
        · exact (ih older).imp id (List.mem_cons_of_mem _)

theorem ascending_put (key : String) (value : α) {l : List (String × α)}
    (h : l.Pairwise (fun a b => a.1 < b.1)) :
    (put key value l).Pairwise (fun a b => a.1 < b.1) := by
  induction l with
  | nil => simp [put]
  | cons head rest ih =>
    obtain ⟨other, old⟩ := head
    obtain ⟨first, later⟩ := List.pairwise_cons.1 h
    simp only [put]
    split
    · rename_i same
      exact List.pairwise_cons.2 ⟨same ▸ first, later⟩
    · rename_i differs
      split
      · rename_i less
        refine List.pairwise_cons.2 ⟨fun entry member => ?_, h⟩
        rcases List.mem_cons.1 member with rfl | older
        · exact less
        · exact String.lt_trans less (first entry older)
      · rename_i notLess
        refine List.pairwise_cons.2 ⟨fun entry member => ?_, ih later⟩
        rcases mem_put member with rfl | older
        · exact Std.lt_of_le_of_ne (String.not_lt.1 notLess) (Ne.symm differs)
        · exact first entry older

/-- Writes an entry, replacing the one that had its key. -/
def insert (m : Keyed α) (key : String) (value : α) : Keyed α :=
  ⟨put key value m.entries, ascending_put key value m.ascending⟩

def get? (m : Keyed α) (key : String) : Option α := m.entries.lookup key

def keys (m : Keyed α) : List String := m.entries.map (·.1)

/-- The map of a list of entries; of entries with one key the last counts. -/
def ofList (l : List (String × α)) : Keyed α := l.foldl (fun m e => m.insert e.1 e.2) empty

theorem lookup_put (key other : String) (value : α) (l : List (String × α)) :
    (put key value l).lookup other = if other = key then some value else l.lookup other := by
  induction l with
  | nil =>
    by_cases h : other = key
    · simp [put, h]
    · simp [put, h, List.lookup_cons, beq_false_of_ne h]
  | cons head rest ih =>
    obtain ⟨k, old⟩ := head
    simp only [put]
    split
    · subst key
      simp only [List.lookup_cons]
      by_cases h : other = k
      · simp [h]
      · simp [h, beq_false_of_ne h]
    · rename_i differs
      split
      · simp only [List.lookup_cons]
        by_cases h : other = key
        · simp [h]
        · simp [h, beq_false_of_ne h]
      · simp only [List.lookup_cons, ih]
        by_cases h : other = k
        · subst other
          simp [Ne.symm differs]
        · simp [beq_false_of_ne h]

/-- After a write, its key has the written value and every other key what it had. -/
@[simp] theorem get?_insert (m : Keyed α) (key other : String) (value : α) :
    (m.insert key value).get? other = if other = key then some value else m.get? other :=
  lookup_put key other value m.entries

end Keyed

end IdlGen
