import RelationLang.Graph.Basic

/-!
# What an operation leaves behind

**Input.**  A graph, and an operation on it.

**Algorithm.**  The lists of concepts, pairs and facts determine a graph, so an operation is described
by what these lists are afterwards. A description fits one graph only, and this is the graph that
the operation gives.

**Results.**
* `atomsStored_iff`: new names become atoms at the end, in order and each once.
* `boxStored_iff`: a box stands at the end if its name is new.
* `factStored_iff`: the names of a fact, its pair and the fact itself stand at the end of their
  lists if they are new.
-/

namespace RelationLang
namespace Graph

section Definitions

/-- Those of the names that a graph does not have, in order and each once. -/
def newNames (g : Graph) (names : List String) : List String :=
  (names.filter fun name => name ∉ g.names).eraseDups

/-- Names are stored: an atom for each new one is appended. -/
structure AtomsStored (names : List String) (g after : Graph) : Prop where
  concepts : after.concepts = g.concepts ++ (g.newNames names).map .atom
  pairs : after.pairs = g.pairs
  facts : after.facts = g.facts

/-- A box is stored: it is appended with its content, unless its name is taken. -/
structure BoxStored (name : String) (content : List Token) (g after : Graph) : Prop where
  concepts : after.concepts =
    if name ∈ g.names then g.concepts else g.concepts ++ [.boxed name content]
  pairs : after.pairs = g.pairs
  facts : after.facts = g.facts

/-- A fact is stored: its new names, its pair if it is new, and the fact itself if nothing says the
same are appended. -/
structure FactStored (fact : Fact) (g after : Graph) : Prop where
  concepts : after.concepts =
    g.concepts ++ (g.newNames [fact.pair.subject, fact.pair.object]).map .atom
  pairs : after.pairs = if fact.pair ∈ g.pairs then g.pairs else g.pairs ++ [fact.pair]
  facts : after.facts =
    if ∃ other ∈ g.facts, other.pair = fact.pair ∧ other.truth = fact.truth then g.facts
    else g.facts ++ [fact]

end Definitions

section Atoms

variable (g : Graph)

theorem addAtom_concepts (name : String) : (g.addAtom name).concepts =
    if name ∈ g.names then g.concepts else g.concepts ++ [.atom name] :=
  g.insert_concepts (.atom name)

theorem newNames_cons_of_mem {name : String} (h : name ∈ g.names) (names : List String) :
    g.newNames (name :: names) = (g.addAtom name).newNames names := by
  have hnames : (g.addAtom name).names = g.names := by
    rw [Graph.names, addAtom_concepts, if_pos h, Graph.names]
  simp [newNames, h, hnames]

/-- A new name comes first, and is not new any more to the names behind it. -/
theorem newNames_cons_of_not_mem {name : String} (h : name ∉ g.names) (names : List String) :
    g.newNames (name :: names) = name :: (g.addAtom name).newNames names := by
  have hnames : (g.addAtom name).names = g.names ++ [name] := by
    rw [Graph.names, addAtom_concepts, if_neg h, List.map_append]
    rfl
  simp [newNames, h, hnames, List.eraseDups_cons, List.filter_filter, and_comm,
    Bool.beq_eq_decide_eq]

/-- An atom is appended for each new name. -/
theorem addAtoms_concepts (names : List String) :
    (g.addAtoms names).concepts = g.concepts ++ (g.newNames names).map .atom := by
  induction names generalizing g with
  | nil => simp [addAtoms, newNames]
  | cons name names ih =>
      have hrest : (g.addAtoms (name :: names)).concepts =
          (g.addAtom name).concepts ++ ((g.addAtom name).newNames names).map .atom :=
        ih (g.addAtom name)
      by_cases h : name ∈ g.names
      · rw [hrest, newNames_cons_of_mem g h, addAtom_concepts, if_pos h]
      · rw [hrest, newNames_cons_of_not_mem g h, addAtom_concepts, if_neg h, List.append_assoc]
        rfl

end Atoms

section Effects

variable {g after : Graph}

theorem atomsStored_iff {names : List String} :
    AtomsStored names g after ↔ after = g.addAtoms names := by
  constructor
  · intro h
    apply Graph.ext
    · rw [h.concepts, addAtoms_concepts]
    · rw [h.pairs, addAtoms_pairs]
    · rw [h.facts, facts, facts, addAtoms_chain]
  · rintro rfl
    exact ⟨g.addAtoms_concepts names, g.addAtoms_pairs names,
      congrArg Chain.facts (g.addAtoms_chain names)⟩

theorem boxStored_iff {name : String} {content : List Token} :
    BoxStored name content g after ↔ after = g.addBox name content := by
  have hconcepts := g.insert_concepts (.boxed name content)
  constructor
  · intro h
    exact Graph.ext (h.concepts.trans hconcepts.symm) h.pairs h.facts
  · rintro rfl
    exact ⟨hconcepts, rfl, rfl⟩

/-- A fact is appended unless another one says the same. -/
theorem record_facts (g : Graph) (fact : Fact) :
    (g.record fact).2.facts =
      if ∃ other ∈ g.facts, other.pair = fact.pair ∧ other.truth = fact.truth then g.facts
      else g.facts ++ [fact] := by
  have hrecords : g.chain.Records fact.signed ↔
      ∃ other ∈ g.facts, other.pair = fact.pair ∧ other.truth = fact.truth := by
    simp [Chain.Records, Fact.signed, facts]
  have hfacts : (g.record fact).2.facts = (g.chain.record fact).2.facts := rfl
  rcases g.chain.record_eq fact with ⟨hseen, hrecord⟩ | ⟨hnew, hrecord⟩
  · rw [hfacts, hrecord, if_pos (hrecords.mp hseen), facts]
  · rw [hfacts, hrecord, if_neg (mt hrecords.mpr hnew), Chain.facts_push, facts]

theorem factStored_iff {fact : Fact} :
    FactStored fact g after ↔ after = (g.record fact).2 := by
  have hconcepts := g.addAtoms_concepts [fact.pair.subject, fact.pair.object]
  have hpairs := g.connect_pairs fact.pair
  have hfacts := g.record_facts fact
  constructor
  · intro h
    exact Graph.ext (h.concepts.trans hconcepts.symm) (h.pairs.trans hpairs.symm)
      (h.facts.trans hfacts.symm)
  · rintro rfl
    exact ⟨hconcepts, hpairs, hfacts⟩

/-- A name that occurs twice is stored once, and one that is known not at all. -/
example : ((empty.addAtom "b").addAtoms ["a", "b", "c", "a"]).concepts =
    [.atom "b", .atom "a", .atom "c"] := by decide

end Effects

end Graph
end RelationLang
