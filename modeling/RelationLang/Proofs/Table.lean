import Mathlib.Data.List.Nodup
import RelationLang.Table

/-!
# Tables as functions

Setting names in an empty table keeps the names in increasing order, and so each name has one
entry. Such a table is known from the values that it finds.

**Results.**
* `Sorted.set`: setting a name keeps the order.
* `Sorted.get?_eq_some_iff`: what is found is exactly what is stored.
* `Sorted.ext`: tables that find the same are the same.
-/

namespace RelationLang
namespace Table

variable {α : Type} {table other : Table α} {name : String} {value : α}

/-- The names increase strictly. -/
def Sorted (table : Table α) : Prop := table.entries.Pairwise fun entry later => entry.1 < later.1

theorem sorted_empty : Sorted ({} : Table α) := List.Pairwise.nil

theorem mem_setIn {entry : String × α} {entries : List (String × α)}
    (h : entry ∈ setIn name value entries) : entry = (name, value) ∨ entry ∈ entries := by
  induction entries with
  | nil => exact .inl (List.mem_singleton.mp h)
  | cons first rest ih =>
      unfold setIn at h
      split at h
      · exact List.mem_cons.mp h
      · split at h
        · exact (List.mem_cons.mp h).imp_right (List.mem_cons_of_mem _)
        · rcases List.mem_cons.mp h with rfl | h
          · exact .inr List.mem_cons_self
          · exact (ih h).imp_right (List.mem_cons_of_mem _)

/-- Setting a name keeps the names in order. -/
theorem Sorted.set (h : table.Sorted) (name : String) (value : α) :
    (table.set name value).Sorted := by
  obtain ⟨entries⟩ := table
  change (setIn name value entries).Pairwise _
  replace h : entries.Pairwise fun entry later => entry.1 < later.1 := h
  induction entries with
  | nil => exact List.pairwise_singleton _ _
  | cons first rest ih =>
      obtain ⟨hfirst, hrest⟩ := List.pairwise_cons.mp h
      unfold setIn
      split
      · next hlt =>
          refine List.pairwise_cons.mpr ⟨fun entry hentry => ?_, h⟩
          rcases List.mem_cons.mp hentry with rfl | hentry
          · exact hlt
          · exact String.lt_trans hlt (hfirst entry hentry)
      · next hlt =>
          split
          · next heq =>
              subst heq
              exact List.pairwise_cons.mpr ⟨hfirst, hrest⟩
          · next hne =>
              refine List.pairwise_cons.mpr ⟨fun entry hentry => ?_, ih hrest⟩
              rcases mem_setIn hentry with rfl | hentry
              · exact Std.lt_of_le_of_ne (String.not_lt.mp hlt) (Ne.symm hne)
              · exact hfirst entry hentry

theorem entries_set_ne_nil (table : Table α) (name : String) (value : α) :
    (table.set name value).entries ≠ [] := by
  intro hnil
  have hget := table.get?_set name name value
  rw [get?, hnil, if_pos rfl] at hget
  exact absurd hget (by simp)

theorem Sorted.keys_nodup (h : table.Sorted) : (table.entries.map Prod.fst).Nodup := by
  refine List.pairwise_map.mpr (h.imp ?_)
  intro entry later hlt heq
  exact String.lt_irrefl later.1 (heq ▸ hlt)

/-- What is found under a name is exactly what is stored under it. -/
theorem Sorted.get?_eq_some_iff (h : table.Sorted) :
    table.get? name = some value ↔ (name, value) ∈ table.entries := by
  rw [get?, Option.map_eq_some_iff]
  constructor
  · rintro ⟨⟨key, found⟩, hfind, rfl⟩
    obtain rfl : key = name := by simpa using List.find?_some hfind
    exact List.mem_of_find?_eq_some hfind
  · intro hmem
    cases hfind : table.entries.find? fun entry => entry.1 == name with
    | none => exact absurd (List.find?_eq_none.mp hfind _ hmem) (by simp)
    | some entry =>
        have hkey : entry.1 = name := by simpa using List.find?_some hfind
        obtain rfl : entry = (name, value) :=
          List.inj_on_of_nodup_map h.keys_nodup (List.mem_of_find?_eq_some hfind) hmem hkey
        exact ⟨_, rfl, rfl⟩

/-- Tables that find the same are the same. -/
theorem Sorted.ext (h : table.Sorted) (h' : other.Sorted)
    (hget : ∀ name, table.get? name = other.get? name) : table = other := by
  have hnodup : ∀ {table : Table α}, table.Sorted → table.entries.Nodup :=
    fun h => List.Nodup.of_map _ h.keys_nodup
  have hmem : ∀ entry, entry ∈ table.entries ↔ entry ∈ other.entries := by
    rintro ⟨name, value⟩
    rw [← h.get?_eq_some_iff, hget, h'.get?_eq_some_iff]
  have hperm : table.entries.Perm other.entries :=
    (List.perm_ext_iff_of_nodup (hnodup h) (hnodup h')).mpr hmem
  have hentries : table.entries = other.entries :=
    hperm.eq_of_pairwise (fun _ _ _ _ hlt hgt => absurd hgt (String.lt_asymm hlt)) h h'
  cases table
  cases other
  cases hentries
  rfl

end Table
end RelationLang
