import RelationLang.Graph.Query
import RelationLang.Proofs.Graph.Consistency
import RelationLang.Proofs.Graph.Growth
import RelationLang.Proofs.Table

/-!
# The table of known states

The table of a graph is filled pair by pair, and yet it shows the same for every order of the
pairs: it is known from the truth values of its pairs, and these are the states of the pairs.

**Results.**
* `truth?_record`: recording the truth value of a pair changes it and no other.
* `Tidy.record`: the table stays in order, and no row of it is empty.
* `Tidy.ext`: such a table is known from its truth values.
* `truth?_ofFacts`: in a table filled fact by fact the last fact on a pair counts.
* `truth?_stateTable`: the truth values in the table of a graph are the states of its pairs.
* `stateTable_eq_ofFacts`: filling the table pair by pair or fact by fact comes to the same.
-/

namespace RelationLang
namespace Graph

namespace StateTable

variable {table other : StateTable} {name : String}

/-- The truth value of a pair in a table. -/
def truth? (table : StateTable) (pair : Pair) : Option Bool :=
  (table.get? pair.subject).bind fun row => row.get? pair.object

/-- The names increase in the table and in each of its rows, and no row is empty. -/
structure Tidy (table : StateTable) : Prop where
  sorted : table.Sorted
  row_sorted : ∀ name row, table.get? name = some row → row.Sorted
  row_ne_nil : ∀ name row, table.get? name = some row → row.entries ≠ []

/-- The table that facts fill in their order. -/
def ofFacts (facts : List Fact) : StateTable :=
  facts.foldl (fun table fact => record table fact.pair fact.truth) {}

theorem tidy_empty : Tidy {} where
  sorted := Table.sorted_empty
  row_sorted := nofun
  row_ne_nil := nofun

/-- Recording the truth value of a pair changes it and no other. -/
theorem truth?_record (table : StateTable) (pair : Pair) (truth : Bool) (other : Pair) :
    (record table pair truth).truth? other =
      if pair = other then some truth else table.truth? other := by
  obtain ⟨subject, object⟩ := pair
  obtain ⟨subject', object'⟩ := other
  simp only [truth?, record, Table.get?_set, Pair.mk.injEq]
  by_cases hsubject : subject = subject'
  · subst hsubject
    rw [if_pos rfl, Option.bind_some, Table.get?_set]
    by_cases hobject : object = object'
    · simp [hobject]
    · cases table.get? subject <;> simp [hobject, Table.get?]
  · simp [hsubject]

/-- The table stays in order, and no row of it is empty. -/
theorem Tidy.record (h : table.Tidy) (pair : Pair) (truth : Bool) :
    (record table pair truth).Tidy where
  sorted := h.sorted.set _ _
  row_sorted := by
    intro name row hrow
    rw [StateTable.record, Table.get?_set] at hrow
    split at hrow
    · obtain rfl := Option.some.inj hrow
      cases hold : table.get? pair.subject with
      | none => exact Table.sorted_empty.set _ _
      | some old => exact (h.row_sorted _ _ hold).set _ _
    · exact h.row_sorted _ _ hrow
  row_ne_nil := by
    intro name row hrow
    rw [StateTable.record, Table.get?_set] at hrow
    split at hrow
    · obtain rfl := Option.some.inj hrow
      exact Table.entries_set_ne_nil _ _ _
    · exact h.row_ne_nil _ _ hrow

theorem tidy_ofFacts (facts : List Fact) : (ofFacts facts).Tidy :=
  List.foldlRecOn facts _ tidy_empty fun _ htable fact _ => htable.record fact.pair fact.truth

/-- Of the facts on a pair the last one counts. -/
theorem truth?_ofFacts (facts : List Fact) (pair : Pair) :
    (ofFacts facts).truth? pair =
      (facts.findRev? fun fact => fact.pair == pair).map (·.truth) := by
  induction facts using List.reverseRecOn with
  | nil => rfl
  | append_singleton facts fact ih =>
      have hlast : ofFacts (facts ++ [fact]) = record (ofFacts facts) fact.pair fact.truth := by
        rw [ofFacts, List.foldl_append, ofFacts, List.foldl_cons, List.foldl_nil]
      rw [hlast, truth?_record, ih]
      by_cases heq : fact.pair = pair <;> simp [heq]

/-- A name without a row is one without truth values. -/
theorem Tidy.get?_eq_none_iff (h : table.Tidy) :
    table.get? name = none ↔ ∀ object, table.truth? ⟨name, object⟩ = none := by
  constructor
  · intro hnone object
    rw [truth?, hnone, Option.bind_none]
  · intro hnone
    cases hrow : table.get? name with
    | none => rfl
    | some row =>
        cases hentries : row.entries with
        | nil => exact absurd hentries (h.row_ne_nil name row hrow)
        | cons entry rest =>
            have hget : row.get? entry.1 = some entry.2 :=
              (h.row_sorted name row hrow).get?_eq_some_iff.mpr (hentries ▸ List.mem_cons_self)
            have htruth := hnone entry.1
            rw [truth?, hrow, Option.bind_some, hget] at htruth
            exact absurd htruth (Option.some_ne_none _)

/-- A table in order without empty rows is known from its truth values. -/
theorem Tidy.ext (h : table.Tidy) (h' : other.Tidy)
    (htruth : ∀ pair, table.truth? pair = other.truth? pair) : table = other := by
  refine h.sorted.ext h'.sorted fun name => ?_
  have hnone : table.get? name = none ↔ other.get? name = none := by
    simp only [h.get?_eq_none_iff, h'.get?_eq_none_iff, htruth]
  cases hrow : table.get? name with
  | none => exact (hnone.mp hrow).symm
  | some row =>
      cases hrow' : other.get? name with
      | none => exact absurd (hnone.mpr hrow') (by simp [hrow])
      | some row' =>
          refine congrArg some
            ((h.row_sorted name row hrow).ext (h'.row_sorted name row' hrow') fun object => ?_)
          simpa [truth?, hrow, hrow'] using htruth ⟨name, object⟩

end StateTable

section States

open StateTable

variable {g h : Graph}

/-- The table with the state of a pair, if it is known. -/
def recordState (g : Graph) (table : StateTable) (pair : Pair) : StateTable :=
  match g.state? pair with
  | some truth => StateTable.record table pair truth
  | none => table

theorem stateTable_eq_foldl (g : Graph) : g.stateTable = g.pairs.foldl g.recordState {} := rfl

theorem truth?_recordState (g : Graph) (table : StateTable) (pair other : Pair) :
    (g.recordState table pair).truth? other =
      if pair = other then (g.state? other).or (table.truth? other) else table.truth? other := by
  by_cases heq : pair = other
  · subst heq
    cases hstate : g.state? pair <;> simp [recordState, hstate, truth?_record]
  · cases hstate : g.state? pair <;> simp [recordState, hstate, truth?_record, heq]

theorem truth?_foldl_recordState (g : Graph) (pairs : List Pair) (table : StateTable)
    (pair : Pair) : (pairs.foldl g.recordState table).truth? pair =
      if pair ∈ pairs then (g.state? pair).or (table.truth? pair) else table.truth? pair := by
  induction pairs generalizing table with
  | nil => rfl
  | cons first rest ih =>
      rw [List.foldl_cons, ih, truth?_recordState]
      by_cases heq : first = pair
      · subst heq
        cases g.state? first <;> simp
      · simp [heq, Ne.symm heq]

theorem tidy_recordState (g : Graph) {table : StateTable} (h : table.Tidy) (pair : Pair) :
    (g.recordState table pair).Tidy := by
  rw [recordState]
  split
  · exact h.record _ _
  · exact h

theorem tidy_stateTable (g : Graph) : g.stateTable.Tidy := by
  rw [stateTable_eq_foldl]
  exact List.foldlRecOn g.pairs g.recordState tidy_empty fun _ htable pair _ =>
    g.tidy_recordState htable pair

/-- A pair with a state is stored. -/
theorem Grounded.mem_of_state? (hg : g.Grounded) {pair : Pair} {truth : Bool}
    (hstate : g.state? pair = some truth) : pair ∈ g.pairs := by
  obtain ⟨fact, hfact, hsigned⟩ := List.mem_map.mp (g.chain.records_of_state? hstate)
  have hpair : fact.pair = pair := congrArg SignedPair.pair hsigned
  exact hpair ▸ hg.facts fact hfact

/-- The truth values in the table of a graph are the states of its pairs. -/
theorem truth?_stateTable (hg : g.Grounded) (pair : Pair) :
    g.stateTable.truth? pair = g.state? pair := by
  rw [stateTable_eq_foldl, truth?_foldl_recordState]
  cases hstate : g.state? pair with
  | none => simp [truth?, Table.get?]
  | some truth => rw [if_pos (hg.mem_of_state? hstate), Option.some_or]

/-- Filling the table pair by pair, with the states of the pairs, or fact by fact comes to the
same. -/
theorem stateTable_eq_ofFacts (hg : g.Grounded) : g.stateTable = ofFacts g.facts := by
  refine g.tidy_stateTable.ext (tidy_ofFacts g.facts) fun pair => ?_
  rw [truth?_stateTable hg, truth?_ofFacts, state?, Chain.state?, Chain.latest?_eq_findRev?, facts]

/-- The facts alone determine the table of known states. -/
theorem stateTable_eq_of_facts (hg : g.Grounded) (hh : h.Grounded) (hfacts : g.facts = h.facts) :
    g.stateTable = h.stateTable := by
  rw [stateTable_eq_ofFacts hg, stateTable_eq_ofFacts hh, hfacts]

end States

end Graph
end RelationLang
