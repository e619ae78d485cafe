import RelationLang.Proofs.Graph.StateTable

/-!
# What a graph shows

The neighbours of a name and the table of known states are views of the pairs and facts of a graph.

**Input.**  A graph, a name, and a test for pairs.

**Algorithm.**  A walk over the pairs that pass the test keeps the end opposite to the name, drops
the repetitions, and looks the concepts up. A name may be met many times, in pairs of both
directions and with different states; its place is that of the first pair that passes the test.

**Results.**
* `Pair.opposite?_eq_some_iff`: the opposite end is the other one of the two names that a pair
  joins.
* `eraseDups_otherEnds_pairwise`: dropping repetitions keeps the order of first meetings.
* `names_neighboursBy`: nothing is lost when the concepts are looked up.
* `shows_neighboursBy`: which concepts are shown, and in which order.
* `views_exact`: the same for both lists of neighbours, and what the table of states shows.
-/

namespace RelationLang

section Definitions

/-- The pair has the two names at its ends, in one order or in the other. -/
def Pair.Joins (pair : Pair) (name other : String) : Prop :=
  pair = ⟨name, other⟩ ∨ pair = ⟨other, name⟩

instance (pair : Pair) (name other : String) : Decidable (pair.Joins name other) :=
  inferInstanceAs (Decidable (_ ∨ _))

/-- The end of a pair opposite to a name, if the pair passes a test. -/
def Pair.otherEnd? (keep : Pair → Bool) (name : String) (pair : Pair) : Option String :=
  if keep pair then pair.opposite? name else none

namespace Graph

/-- The position of the first pair that passes a test and joins two names. -/
def firstJoining (pairs : List Pair) (keep : Pair → Bool) (name other : String) : Nat :=
  pairs.findIdx fun pair => keep pair && decide (pair.Joins name other)

/-- A list of concepts shows what a name is joined with by the pairs that pass a test: exactly the
stored concepts with such names, without losing a name, each once, and in the order of the first of
these pairs. -/
structure Shows (g : Graph) (name : String) (keep : Pair → Bool) (shown : List Concept) : Prop where
  mem_iff : ∀ concept, concept ∈ shown ↔
    concept ∈ g.concepts ∧ ∃ pair ∈ g.pairs, keep pair = true ∧ pair.Joins name concept.name
  names_iff : ∀ other, other ∈ shown.map Concept.name ↔
    ∃ pair ∈ g.pairs, keep pair = true ∧ pair.Joins name other
  nodup : (shown.map Concept.name).Nodup
  ordered : shown.Pairwise fun concept later =>
    firstJoining g.pairs keep name concept.name < firstJoining g.pairs keep name later.name

end Graph

end Definitions

section Ends

variable {pair : Pair} {keep : Pair → Bool} {name other : String}

theorem Pair.joins_comm : pair.Joins name other ↔ pair.Joins other name := or_comm

theorem Pair.joins_self_iff : pair.Joins name name ↔ pair = ⟨name, name⟩ := or_self_iff

/-- The opposite end of a name is the other one of the two names that a pair joins. -/
theorem Pair.opposite?_eq_some_iff : pair.opposite? name = some other ↔ pair.Joins name other := by
  obtain ⟨subject, object⟩ := pair
  simp only [opposite?, Joins, Pair.mk.injEq]
  by_cases hsubject : subject = name
  · subst hsubject
    rw [if_pos rfl, Option.some.injEq]
    constructor
    · rintro rfl
      exact .inl ⟨rfl, rfl⟩
    · rintro (⟨_, rfl⟩ | ⟨rfl, rfl⟩)
      · rfl
      · rfl
  · rw [if_neg hsubject]
    by_cases hobject : object = name
    · simp [hsubject, hobject]
    · simp [hsubject, hobject]

theorem Pair.otherEnd?_eq_some_iff :
    pair.otherEnd? keep name = some other ↔ keep pair = true ∧ pair.Joins name other := by
  by_cases hkeep : keep pair = true <;> simp [otherEnd?, hkeep, opposite?_eq_some_iff]

end Ends

namespace Graph

section Neighbours

variable {g : Graph} {keep : Pair → Bool} {name other : String}

theorem mem_otherEnds {pairs : List Pair} :
    other ∈ pairs.filterMap (Pair.otherEnd? keep name) ↔
      ∃ pair ∈ pairs, keep pair = true ∧ pair.Joins name other := by
  simp only [List.mem_filterMap, Pair.otherEnd?_eq_some_iff]

theorem firstJoining_lt_length {pairs : List Pair}
    (h : other ∈ pairs.filterMap (Pair.otherEnd? keep name)) :
    firstJoining pairs keep name other < pairs.length := by
  obtain ⟨pair, hpair, hkeep, hjoins⟩ := mem_otherEnds.mp h
  exact List.findIdx_lt_length_of_exists ⟨pair, hpair, by simp [hkeep, hjoins]⟩

/-- Pairs at the end do not matter to a name that was met before. -/
theorem firstJoining_append {pairs : List Pair} (more : List Pair)
    (h : other ∈ pairs.filterMap (Pair.otherEnd? keep name)) :
    firstJoining (pairs ++ more) keep name other = firstJoining pairs keep name other := by
  have hlt := firstJoining_lt_length h
  rw [firstJoining] at hlt
  rw [firstJoining, List.findIdx_append, if_pos hlt, firstJoining]

/-- A name that was not met before is met at the end. -/
theorem firstJoining_concat {pairs : List Pair} {pair : Pair}
    (h : other ∉ pairs.filterMap (Pair.otherEnd? keep name))
    (hend : pair.otherEnd? keep name = some other) :
    firstJoining (pairs ++ [pair]) keep name other = pairs.length := by
  have hnone : (pairs.findIdx fun pair => keep pair && decide (pair.Joins name other)) =
      pairs.length := by
    refine List.findIdx_eq_length.mpr fun earlier hearlier => ?_
    by_contra hfound
    exact h (mem_otherEnds.mpr ⟨earlier, hearlier, by simpa using hfound⟩)
  obtain ⟨hkeep, hjoins⟩ := Pair.otherEnd?_eq_some_iff.mp hend
  rw [firstJoining, List.findIdx_append, hnone]
  simp [hkeep, hjoins]

/-- Only a new entry at the end is kept when repetitions are dropped. -/
theorem eraseDups_concat {α : Type} [DecidableEq α] (entries : List α) (last : α) :
    (entries ++ [last]).eraseDups =
      if last ∈ entries then entries.eraseDups else entries.eraseDups ++ [last] := by
  rw [List.eraseDups_append, List.removeAll]
  by_cases h : last ∈ entries <;> simp [h, List.eraseDups_cons]

/-- The names that are met, without repetitions, stand in the order of the first pairs. The
induction adds a pair at the end, where it can only add a new name behind the others. -/
theorem eraseDups_otherEnds_pairwise (pairs : List Pair) (keep : Pair → Bool) (name : String) :
    (pairs.filterMap (Pair.otherEnd? keep name)).eraseDups.Pairwise fun other later =>
      firstJoining pairs keep name other < firstJoining pairs keep name later := by
  induction pairs using List.reverseRecOn with
  | nil => exact List.Pairwise.nil
  | append_singleton pairs pair ih =>
      have hold : (pairs.filterMap (Pair.otherEnd? keep name)).eraseDups.Pairwise
          fun other later => firstJoining (pairs ++ [pair]) keep name other <
            firstJoining (pairs ++ [pair]) keep name later := by
        refine ih.imp_of_mem fun {other later} hother hlater hlt => ?_
        rw [List.mem_eraseDups] at hother hlater
        rwa [firstJoining_append _ hother, firstJoining_append _ hlater]
      rw [List.filterMap_append]
      cases hend : pair.otherEnd? keep name with
      | none => simpa [hend] using hold
      | some last =>
          have hlast : [pair].filterMap (Pair.otherEnd? keep name) = [last] := by simp [hend]
          rw [hlast, eraseDups_concat]
          split
          · exact hold
          · next hnew =>
              refine List.pairwise_append.mpr ⟨hold, List.pairwise_singleton _ _, ?_⟩
              intro other hother later hlater
              rw [List.mem_eraseDups] at hother
              obtain rfl := List.mem_singleton.mp hlater
              rw [firstJoining_append _ hother, firstJoining_concat hnew hend]
              exact firstJoining_lt_length hother

/-- The walk keeps the opposite ends of the pairs that pass the test. -/
theorem neighboursBy_eq (g : Graph) (name : String) (keep : Pair → Bool) :
    g.neighboursBy name keep =
      (g.pairs.filterMap (Pair.otherEnd? keep name)).eraseDups.filterMap g.concept? := by
  have hends : ((g.pairsAbout name).filter keep).filterMap (fun pair => pair.opposite? name) =
      g.pairs.filterMap (Pair.otherEnd? keep name) := by
    rw [pairsAbout, List.filter_filter, List.filterMap_filter]
    refine List.filterMap_congr fun pair _ => ?_
    by_cases hend : pair.hasEnd name = true
    · simp [Pair.otherEnd?, hend]
    · have hnone : pair.opposite? name = none := by
        simpa using mt Pair.hasEnd_iff_opposite?_isSome.mpr hend
      simp [Pair.otherEnd?, hnone]
  rw [neighboursBy, hends]

/-- The concepts shown are those stored under names that a pair joins. -/
theorem mem_neighboursBy {concept : Concept} :
    concept ∈ g.neighboursBy name keep ↔
      concept ∈ g.concepts ∧
        ∃ pair ∈ g.pairs, keep pair = true ∧ pair.Joins name concept.name := by
  rw [neighboursBy_eq, List.mem_filterMap, ← mem_otherEnds]
  constructor
  · rintro ⟨other, hother, hfind⟩
    obtain ⟨hconcept, rfl⟩ := (g.scanned.concept?_eq_some_iff other concept).mp hfind
    exact ⟨hconcept, List.mem_eraseDups.mp hother⟩
  · rintro ⟨hconcept, hother⟩
    exact ⟨concept.name, List.mem_eraseDups.mpr hother,
      (g.scanned.concept?_eq_some_iff _ _).mpr ⟨hconcept, rfl⟩⟩

/-- Concepts that are looked up under stored names have these names. -/
theorem map_name_filterMap_concept? {names : List String} (h : ∀ other ∈ names, other ∈ g.names) :
    (names.filterMap g.concept?).map Concept.name = names := by
  induction names with
  | nil => rfl
  | cons first rest ih =>
      rw [List.forall_mem_cons] at h
      cases hfind : g.concept? first with
      | none => exact absurd h.1 ((g.scanned.concept?_eq_none_iff first).mp hfind)
      | some concept =>
          have hname := ((g.scanned.concept?_eq_some_iff first concept).mp hfind).2
          rw [List.filterMap_cons, hfind, List.map_cons, hname, ih h.2]

/-- Nothing is lost when the concepts are looked up, since the ends of pairs are stored. -/
theorem names_neighboursBy (hg : g.Grounded) (name : String) (keep : Pair → Bool) :
    (g.neighboursBy name keep).map Concept.name =
      (g.pairs.filterMap (Pair.otherEnd? keep name)).eraseDups := by
  rw [neighboursBy_eq]
  refine map_name_filterMap_concept? fun other hother => ?_
  rw [List.mem_eraseDups, mem_otherEnds] at hother
  obtain ⟨pair, hpair, _, rfl | rfl⟩ := hother
  · exact (hg.ends _ hpair).2
  · exact (hg.ends _ hpair).1

/-- A name is shown if and only if a pair that passes the test joins it. -/
theorem mem_names_neighboursBy (hg : g.Grounded) :
    other ∈ (g.neighboursBy name keep).map Concept.name ↔
      ∃ pair ∈ g.pairs, keep pair = true ∧ pair.Joins name other := by
  rw [names_neighboursBy hg, List.mem_eraseDups, mem_otherEnds]

/-- Which concepts are shown, and in which order. -/
theorem shows_neighboursBy (hg : g.Grounded) (name : String) (keep : Pair → Bool) :
    g.Shows name keep (g.neighboursBy name keep) := by
  -- The places increase strictly, which also leaves no room for a repetition.
  have hordered : ((g.neighboursBy name keep).map Concept.name).Pairwise fun other later =>
      firstJoining g.pairs keep name other < firstJoining g.pairs keep name later := by
    rw [names_neighboursBy hg]
    exact eraseDups_otherEnds_pairwise g.pairs keep name
  exact
    { mem_iff := fun _ => mem_neighboursBy
      names_iff := fun _ => mem_names_neighboursBy hg
      nodup := hordered.imp fun hlt => ne_of_apply_ne _ (Nat.ne_of_lt hlt)
      ordered := hordered.of_map Concept.name fun _ _ hlt => hlt }

/-- A name is shown for another one if and only if this one is shown for it. -/
theorem names_neighboursBy_comm (hg : g.Grounded) :
    other ∈ (g.neighboursBy name keep).map Concept.name ↔
      name ∈ (g.neighboursBy other keep).map Concept.name := by
  rw [mem_names_neighboursBy hg, mem_names_neighboursBy hg]
  exact exists_congr fun pair => and_congr_right fun _ => and_congr_right fun _ => Pair.joins_comm

/-- A name is shown for itself if and only if its pair with itself passes the test. -/
theorem self_mem_names_neighboursBy (hg : g.Grounded) :
    name ∈ (g.neighboursBy name keep).map Concept.name ↔
      ⟨name, name⟩ ∈ g.pairs ∧ keep ⟨name, name⟩ = true := by
  simp [mem_names_neighboursBy hg, Pair.joins_self_iff]

end Neighbours

section Views

/-- The neighbours of a name, and its neighbours with a state, are exactly the stored concepts that
the pairs, or the pairs with this state, join it with, each once and in the order of the first such
pair. So a name is its own neighbour only by its pair with itself, and neighbours are neighbours of
each other. The table of states shows the state of every pair and has no empty row; it is the one
that the facts fill in their order, so that every fact counts although the walk is over the
pairs. -/
theorem views_exact {g : Graph} (h : g.Reachable) (name : String) (truth : Bool) :
    g.Shows name (fun _ => true) (g.neighbours name) ∧
      g.Shows name (fun pair => g.state? pair == some truth) (g.neighboursWithState name truth) ∧
      (name ∈ (g.neighbours name).map Concept.name ↔ ⟨name, name⟩ ∈ g.pairs) ∧
      (∀ other,
        (other ∈ (g.neighbours name).map Concept.name ↔
          name ∈ (g.neighbours other).map Concept.name) ∧
        (other ∈ (g.neighboursWithState name truth).map Concept.name ↔
          name ∈ (g.neighboursWithState other truth).map Concept.name)) ∧
      (∀ pair, g.stateTable.truth? pair = g.state? pair) ∧
      g.stateTable.Tidy ∧
      g.stateTable = .ofFacts g.facts ∧
      ∀ fact ∈ g.facts, (g.stateTable.truth? fact.pair).isSome = true := by
  have hg := h.consistent.toGrounded
  refine ⟨shows_neighboursBy hg _ _, shows_neighboursBy hg _ _, ?_, fun other => ⟨?_, ?_⟩,
    truth?_stateTable hg, g.tidy_stateTable, stateTable_eq_ofFacts hg, fun fact hfact => ?_⟩
  · rw [neighbours, self_mem_names_neighboursBy hg]
    exact and_iff_left rfl
  · exact names_neighboursBy_comm hg
  · exact names_neighboursBy_comm hg
  · rw [truth?_stateTable hg, state?, Chain.state?, Option.isSome_map]
    exact g.chain.latest?_isSome_iff.mpr ⟨fact, hfact, rfl⟩

/-- A graph in which "animal" is first met in a pair that does not hold and then in one that does,
"rock" in a pair without facts, and "cat" in its pair with itself. -/
theorem animal_met_twice :
    ∃ g : Graph, g.Reachable ∧
      g.pairs = [⟨"cat", "animal"⟩, ⟨"rock", "cat"⟩, ⟨"cat", "cat"⟩, ⟨"animal", "cat"⟩] ∧
      g.neighbours "cat" = [.atom "animal", .boxed "rock" ["grey"], .atom "cat"] ∧
      g.Shows "cat" (fun _ => true) (g.neighbours "cat") ∧
      g.neighboursWithState "cat" true = [.atom "cat", .atom "animal"] ∧
      g.Shows "cat" (fun pair => g.state? pair == some true) (g.neighboursWithState "cat" true) ∧
      "cat" ∈ (g.neighboursWithState "animal" true).map Concept.name ∧
      g.stateTable.truth? ⟨"cat", "animal"⟩ = some false ∧
      g.stateTable.Tidy ∧ g.stateTable = .ofFacts g.facts := by
  have hreachable : (empty.performAll [.addBox "rock" ["grey"],
      .record ⟨⟨"cat", "animal"⟩, true, .identity⟩, .connect ⟨"rock", "cat"⟩,
      .record ⟨⟨"cat", "animal"⟩, false, .identity⟩, .record ⟨⟨"cat", "cat"⟩, true, .identity⟩,
      .record ⟨⟨"animal", "cat"⟩, true, .property⟩]).Reachable := ⟨_, rfl⟩
  obtain ⟨hall, hstate, _, hcomm, htruth, htidy, hfacts, _⟩ := views_exact hreachable "cat" true
  exact ⟨_, hreachable, by decide, by decide, hall, by decide, hstate,
    (hcomm "animal").2.mp (by decide), (htruth _).trans (by decide), htidy, hfacts⟩

end Views

end Graph
end RelationLang
