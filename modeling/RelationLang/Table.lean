/-!
# Tables

A table maps names to values and lists them in the order of their code points.

**Results.**
* `get?_set`: setting a name changes the value of that name and of no other.
-/

namespace RelationLang

/-- Names with values, in increasing order of the names. -/
structure Table (α : Type) where
  entries : List (String × α) := []
deriving Repr

namespace Table

variable {α : Type}

/-- Sets a name in a sorted list of entries. -/
def setIn (name : String) (value : α) : List (String × α) → List (String × α)
  | [] => [(name, value)]
  | (other, old) :: rest =>
    if name < other then (name, value) :: (other, old) :: rest
    else if name = other then (name, value) :: rest
    else (other, old) :: setIn name value rest

/-- The table with the value of one name set. -/
def set (table : Table α) (name : String) (value : α) : Table α :=
  ⟨setIn name value table.entries⟩

def get? (table : Table α) (name : String) : Option α :=
  (table.entries.find? fun entry => entry.1 == name).map (·.2)

/-- The value of a name in a list after setting. -/
theorem find?_setIn (name other : String) (value : α) (entries : List (String × α)) :
    ((setIn name value entries).find? fun entry => entry.1 == other).map (·.2) =
      if name = other then some value
      else (entries.find? fun entry => entry.1 == other).map (·.2) := by
  induction entries with
  | nil => by_cases h : name = other <;> simp [setIn, h]
  | cons entry rest ih =>
    obtain ⟨key, old⟩ := entry
    unfold setIn
    by_cases hlt : name < key
    · rw [if_pos hlt]
      by_cases h : name = other <;> simp [h]
    · rw [if_neg hlt]
      by_cases heq : name = key
      · rw [if_pos heq]
        subst heq
        by_cases h : name = other <;> simp [h]
      · rw [if_neg heq]
        by_cases hk : key = other
        · have h : ¬ name = other := fun h => heq (h.trans hk.symm)
          simp [hk, h]
        · simpa [hk] using ih

/-- Setting a name changes the value of that name and of no other. -/
theorem get?_set (table : Table α) (name other : String) (value : α) :
    (table.set name value).get? other = if name = other then some value else table.get? other :=
  find?_setIn name other value table.entries

end Table
end RelationLang
