import Std.Data.ExtTreeMap

/-!
# Catalogues

A catalogue lists entries in the order of their arrival, at most one under each key, and keeps
for every key the position of its entry in the list. Looking a key up reads one position instead
of the whole list.

**Results.**
* `keys_nodup`: no two entries share a key.
* `find?_eq_some_iff`: what is found under a key is the entry with the key.
* `entries_insert`: an entry is appended exactly when its key is new.
* `ext`: the entries alone determine the catalogue.
-/

namespace RelationLang

/-- Entries in order of arrival, with the position of each key. -/
structure Catalogue {α κ : Type} [Ord κ] [Std.TransOrd κ] (key : α → κ) where
  entries : List α
  positions : Std.ExtTreeMap κ Nat
  /-- A key is at a position exactly when the entry there has the key. -/
  positions_iff : ∀ k i, positions[k]? = some i ↔ (entries[i]?).map key = some k
deriving Repr

namespace Catalogue

variable {α κ : Type} [Ord κ] [Std.TransOrd κ] {key : α → κ}

def empty : Catalogue key where
  entries := []
  positions := ∅
  positions_iff := by simp

instance : EmptyCollection (Catalogue key) := ⟨empty⟩

instance : Inhabited (Catalogue key) := ⟨empty⟩

/-- The entry at the position of a key. -/
def find? (c : Catalogue key) (k : κ) : Option α := c.positions[k]?.bind fun i => c.entries[i]?

section Lookup

variable (c : Catalogue key)

/-- The entry found under a key has the key. -/
theorem find?_eq_some_iff {k : κ} {a : α} : c.find? k = some a ↔ a ∈ c.entries ∧ key a = k := by
  constructor
  · intro h
    obtain ⟨i, hi, ha⟩ := Option.bind_eq_some_iff.mp h
    refine ⟨List.mem_of_getElem? ha, ?_⟩
    have hkey := (c.positions_iff k i).mp hi
    simpa [ha] using hkey
  · rintro ⟨hmem, rfl⟩
    obtain ⟨i, hi⟩ := List.mem_iff_getElem?.mp hmem
    have hpos : c.positions[key a]? = some i := (c.positions_iff _ i).mpr (by simp [hi])
    simp [find?, hpos, hi]

/-- Nothing is found under a key exactly when no entry has it. -/
theorem find?_eq_none_iff {k : κ} : c.find? k = none ↔ ∀ a ∈ c.entries, key a ≠ k := by
  constructor
  · intro h a ha hk
    have := c.find?_eq_some_iff.mpr ⟨ha, hk⟩
    simp [h] at this
  · intro h
    cases hfind : c.find? k with
    | none => rfl
    | some a =>
        obtain ⟨ha, hk⟩ := c.find?_eq_some_iff.mp hfind
        exact absurd hk (h a ha)

/-- A key has a position exactly when an entry is found under it. -/
theorem mem_positions_iff {k : κ} : k ∈ c.positions ↔ ∃ a ∈ c.entries, key a = k := by
  rw [Std.ExtTreeMap.mem_iff_isSome_getElem?, Option.isSome_iff_exists]
  constructor
  · rintro ⟨i, hi⟩
    obtain ⟨a, ha, hk⟩ := Option.map_eq_some_iff.mp ((c.positions_iff k i).mp hi)
    exact ⟨a, List.mem_of_getElem? ha, hk⟩
  · rintro ⟨a, ha, rfl⟩
    obtain ⟨i, hi⟩ := List.mem_iff_getElem?.mp ha
    exact ⟨i, (c.positions_iff _ i).mpr (by simp [hi])⟩

/-- No two entries share a key. -/
theorem keys_nodup : (c.entries.map key).Nodup := by
  rw [List.nodup_iff_pairwise_ne, List.pairwise_iff_getElem]
  intro i j hi hj hij heq
  have hposj : c.positions[(c.entries.map key)[j]]? = some j :=
    (c.positions_iff _ j).mpr (by rw [← List.getElem?_map, List.getElem?_eq_getElem hj])
  have hposi : c.positions[(c.entries.map key)[j]]? = some i :=
    (c.positions_iff _ i).mpr (by rw [← List.getElem?_map, List.getElem?_eq_getElem hi, heq])
  rw [hposi] at hposj
  injection hposj with hposj
  omega

end Lookup

/-- The entries alone determine the catalogue. -/
@[ext] theorem ext [Std.LawfulEqOrd κ] {c d : Catalogue key} (h : c.entries = d.entries) :
    c = d := by
  obtain ⟨entries, positions, hc⟩ := c
  obtain ⟨entries', positions', hd⟩ := d
  subst h
  have hpos : positions = positions' := by
    apply Std.ExtTreeMap.ext_getElem?
    intro k
    apply Option.ext
    intro i
    rw [hc, hd]
  subst hpos
  rfl

instance [Std.LawfulEqOrd κ] [DecidableEq α] : DecidableEq (Catalogue key) := fun c d =>
  decidable_of_iff (c.entries = d.entries) ⟨ext, congrArg entries⟩

section Insert

variable [Std.LawfulEqOrd κ]

/-- Appending an entry with a new key puts its key at the end. -/
theorem positions_iff_append (c : Catalogue key) {a : α} (h : key a ∉ c.positions) (k : κ)
    (i : Nat) :
    (c.positions.insert (key a) c.entries.length)[k]? = some i ↔
      ((c.entries ++ [a])[i]?).map key = some k := by
  simp only [Std.ExtTreeMap.getElem?_insert, Std.LawfulEqOrd.compare_eq_iff_eq]
  by_cases hlt : i < c.entries.length
  · rw [List.getElem?_append_left hlt, ← c.positions_iff]
    by_cases hk : key a = k
    · subst hk
      have hnone : c.positions[key a]? = none := Std.ExtTreeMap.getElem?_eq_none h
      simp [hnone]
      omega
    · simp [hk]
  · rw [List.getElem?_append_right (by omega)]
    have hnone : c.positions[k]? ≠ some i := by
      intro hpos
      have := (c.positions_iff k i).mp hpos
      rw [List.getElem?_eq_none (by omega)] at this
      exact nomatch this
    by_cases hk : key a = k
    · by_cases hi : i = c.entries.length
      · simp [hk, hi]
      · obtain ⟨n, hn⟩ : ∃ n, i - c.entries.length = n + 1 :=
          ⟨i - c.entries.length - 1, by omega⟩
        simp [hk, hn, Ne.symm hi]
    · cases hi : i - c.entries.length <;> simp [hk, hnone]

/-- Adds an entry at the end, unless its key is taken. -/
def insert (c : Catalogue key) (a : α) : Catalogue key :=
  if h : key a ∈ c.positions then c
  else
    { entries := c.entries ++ [a]
      positions := c.positions.insert (key a) c.entries.length
      positions_iff := c.positions_iff_append h }

/-- An entry is appended exactly when its key is new. -/
theorem entries_insert [DecidableEq κ] (c : Catalogue key) (a : α) :
    (c.insert a).entries =
      if (∃ b ∈ c.entries, key b = key a) then c.entries else c.entries ++ [a] := by
  unfold insert
  by_cases h : key a ∈ c.positions
  · rw [dif_pos h, if_pos (c.mem_positions_iff.mp h)]
  · rw [dif_neg h, if_neg fun hex => h (c.mem_positions_iff.mpr hex)]

end Insert

end Catalogue
end RelationLang
