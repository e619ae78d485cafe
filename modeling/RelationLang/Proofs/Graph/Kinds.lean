import RelationLang.Graph.Query
import RelationLang.Proofs.Graph.Operation
import RelationLang.Proofs.Program.ChainText

/-!
# The kinds of facts

The kind of a fact is a remark. It is stored, and a completion pass hands it on to other facts, but
nothing is decided by it.

**Input.**  Two graphs, and operations on each, that are the same but for the kinds of facts.

**Algorithm.**  Facts are told apart by their pairs and truth values. What an operation does to
these, to the pairs and to the concepts depends on them alone.

**Results.**
* `Alike.record`, `Alike.complete`: recording a fact and completing a graph give the same answer,
  whatever the kinds.
* `Alike.performAll`: graphs that are the same but for kinds remain so, and give the same answers.
* `Alike.views`: they cannot be told apart by questions that leave the kinds aside.
-/

namespace RelationLang

section Definitions

/-- What an operation answers. -/
inductive Answer where
  | nothing
  /-- Whether a fact was appended. -/
  | appended (grown : Bool)
  /-- How many facts a completion pass has appended. -/
  | inferred (count : Nat)
deriving DecidableEq, Repr

/-- The same operations, but for the kinds of the facts to record. -/
inductive Operation.Alike : Operation → Operation → Prop
  | refl (op : Operation) : Alike op op
  | record {fact fact' : Fact} :
      fact.signed = fact'.signed →
      Alike (.record fact) (.record fact')

namespace Graph

/-- The answer to an operation. -/
def answer (g : Graph) : Operation → Answer
  | .record fact => .appended (g.record fact).1
  | .complete => .inferred g.complete.1
  | _ => .nothing

/-- The answers to operations performed in order. -/
def answers (g : Graph) : List Operation → List Answer
  | [] => []
  | op :: ops => g.answer op :: (g.perform op).answers ops

/-- The same graphs, but for the kinds of facts. -/
structure Alike (g g' : Graph) : Prop where
  concepts : g.concepts = g'.concepts
  pairs : g.pairs = g'.pairs
  facts : g.facts.map Fact.signed = g'.facts.map Fact.signed

/-- All that can be asked about two graphs, except for the kinds of facts, has the same answer. -/
structure SameViews (g g' : Graph) : Prop where
  concepts : g.concepts = g'.concepts
  pairs : g.pairs = g'.pairs
  facts : g.facts.map Fact.signed = g'.facts.map Fact.signed
  states : ∀ pair, g.state? pair = g'.state? pair
  stateTable : g.stateTable = g'.stateTable
  neighbours : ∀ name, g.neighbours name = g'.neighbours name
  neighboursWithState : ∀ name truth,
    g.neighboursWithState name truth = g'.neighboursWithState name truth
  text : g.text = g'.text

end Graph

end Definitions

namespace Chain

variable {c d : Chain} (h : c.facts.map Fact.signed = d.facts.map Fact.signed)
include h

theorem latest?_alike (pair : Pair) :
    (c.latest? pair).map Fact.signed = (d.latest? pair).map Fact.signed := by
  have hscan : ∀ chain : Chain, (chain.latest? pair).map Fact.signed =
      (chain.facts.map Fact.signed).reverse.find? fun signed => signed.pair == pair := by
    intro chain
    rw [latest?_eq_findRev?, List.findRev?_eq_find?_reverse, ← List.map_reverse, List.find?_map]
    rfl
  rw [hscan, hscan, h]

theorem state?_alike (pair : Pair) : c.state? pair = d.state? pair := by
  have hstate : ∀ chain : Chain,
      chain.state? pair = ((chain.latest? pair).map Fact.signed).map SignedPair.truth := by
    intro chain
    rw [state?, Option.map_map]
    rfl
  rw [hstate, hstate, latest?_alike h]

/-- Two facts that say the same are both new to chains that say the same, or both are not. -/
theorem record_alike {fact fact' : Fact} (hfact : fact.signed = fact'.signed) :
    (c.record fact).1 = (d.record fact').1 ∧
      (c.record fact).2.facts.map Fact.signed = (d.record fact').2.facts.map Fact.signed := by
  have hrecords : c.Records fact.signed ↔ d.Records fact'.signed := by
    rw [Records, Records, h, hfact]
  by_cases hold : c.Records fact.signed
  · rw [record, dif_pos hold, record, dif_pos (hrecords.mp hold)]
    exact ⟨rfl, h⟩
  · rw [record, dif_neg hold, record, dif_neg (mt hrecords.mpr hold)]
    exact ⟨rfl, by simp [h, hfact]⟩

end Chain

namespace Graph

variable {g g' : Graph}

@[refl] theorem Alike.refl (g : Graph) : g.Alike g := ⟨rfl, rfl, rfl⟩

section Alike

variable (h : g.Alike g')
include h

theorem Alike.conceptStore : g.conceptStore = g'.conceptStore := Catalogue.ext h.concepts

theorem Alike.pairStore : g.pairStore = g'.pairStore := Catalogue.ext h.pairs

theorem Alike.concept? (name : String) : g.concept? name = g'.concept? name := by
  rw [Graph.concept?, h.conceptStore, ← Graph.concept?]

theorem Alike.pair? (pair : Pair) : g.pair? pair = g'.pair? pair := by
  rw [Graph.pair?, h.pairStore, ← Graph.pair?]

theorem Alike.state? (pair : Pair) : g.state? pair = g'.state? pair :=
  Chain.state?_alike h.facts pair

theorem Alike.insert (concept : Concept) : (g.insert concept).Alike (g'.insert concept) where
  concepts := by simp only [Graph.concepts, Graph.insert, h.conceptStore]
  pairs := h.pairs
  facts := h.facts

theorem Alike.addAtoms (names : List String) : (g.addAtoms names).Alike (g'.addAtoms names) := by
  induction names generalizing g g' with
  | nil => exact h
  | cons name rest ih => exact ih (h.insert _)

theorem Alike.connect (pair : Pair) : (g.connect pair).Alike (g'.connect pair) where
  concepts := ((h.insert (.atom pair.subject)).insert (.atom pair.object)).concepts
  pairs := by rw [connect_pairs, connect_pairs, h.pairs]
  facts := h.facts

theorem Alike.record {fact fact' : Fact} (hfact : fact.signed = fact'.signed) :
    (g.record fact).1 = (g'.record fact').1 ∧ (g.record fact).2.Alike (g'.record fact').2 := by
  have hpair : fact.pair = fact'.pair := congrArg SignedPair.pair hfact
  have hconnect := h.connect fact.pair
  obtain ⟨hgrown, hfacts⟩ := Chain.record_alike hconnect.facts hfact
  refine ⟨hgrown, ?_, ?_, hfacts⟩
  · rw [record_concepts, record_concepts, ← hpair, hconnect.concepts]
  · rw [record_pairs, record_pairs, ← hpair, hconnect.pairs]

end Alike

section Completion

variable (h : g.Alike g') {latest latest' : Option Fact}
  (hlatest : latest.map Fact.signed = latest'.map Fact.signed)

include hlatest in
theorem inheritedTruth_alike (state : Bool) :
    inheritedTruth latest state = inheritedTruth latest' state := by
  have htruth := congrArg (Option.map SignedPair.truth) hlatest
  rw [Option.map_map, Option.map_map] at htruth
  have htruth' : latest.map (·.truth) = latest'.map (·.truth) := htruth
  rw [inheritedTruth, htruth', ← inheritedTruth]

include h hlatest

/-- The rule suggests the same, but for the kind it hands on. -/
theorem Alike.suggestion? (base dependent : Pair) :
    (g.suggestion? base latest dependent).map Fact.signed =
      (g'.suggestion? base latest' dependent).map Fact.signed := by
  simp only [Graph.suggestion?, h.pair?, h.state?]
  split
  · rfl
  · split
    · rfl
    · simp only [Option.map_map]
      congr 1
      funext state
      simp [Fact.signed, inheritedTruth_alike hlatest]

theorem Alike.derive (base dependent : Pair) :
    (g.derive base latest dependent).1 = (g'.derive base latest' dependent).1 ∧
      (g.derive base latest dependent).2.Alike (g'.derive base latest' dependent).2 := by
  have hsuggestion := h.suggestion? hlatest base dependent
  unfold Graph.derive
  cases hg : g.suggestion? base latest dependent with
  | none =>
      rw [hg, Option.map_none, eq_comm, Option.map_eq_none_iff] at hsuggestion
      simpa [hsuggestion] using h
  | some fact =>
      rw [hg, Option.map_some, eq_comm, Option.map_eq_some_iff] at hsuggestion
      obtain ⟨fact', hg', hfact⟩ := hsuggestion
      simpa [hg'] using h.record hfact.symm

end Completion

section Passes

theorem Alike.completeWith {latest latest' : Option Fact}
    (hlatest : latest.map Fact.signed = latest'.map Fact.signed) (base : Pair)
    (dependents : List Pair) {acc acc' : Nat × Graph} (hcount : acc.1 = acc'.1)
    (h : acc.2.Alike acc'.2) :
    (completeWith base latest dependents acc).1 = (completeWith base latest' dependents acc').1 ∧
      (completeWith base latest dependents acc).2.Alike
        (completeWith base latest' dependents acc').2 := by
  induction dependents generalizing acc acc' with
  | nil => exact ⟨hcount, h⟩
  | cons dependent rest ih =>
      obtain ⟨hgrown, halike⟩ := h.derive hlatest base dependent
      exact ih (congrArg₂ (fun count grown => count + Bool.toNat grown) hcount hgrown) halike

theorem Alike.completeOver (dependents bases : List Pair) {acc acc' : Nat × Graph}
    (hcount : acc.1 = acc'.1) (h : acc.2.Alike acc'.2) :
    (completeOver dependents bases acc).1 = (completeOver dependents bases acc').1 ∧
      (completeOver dependents bases acc).2.Alike (completeOver dependents bases acc').2 := by
  induction bases generalizing acc acc' with
  | nil => exact ⟨hcount, h⟩
  | cons base rest ih =>
      have hlatest := Chain.latest?_alike h.facts base
      obtain ⟨hcount', halike⟩ := Alike.completeWith hlatest base dependents hcount h
      exact ih hcount' halike

end Passes

section Operations

variable (h : g.Alike g')
include h

theorem Alike.complete : g.complete.1 = g'.complete.1 ∧ g.complete.2.Alike g'.complete.2 := by
  rw [Graph.complete, Graph.complete, ← h.pairs]
  exact Alike.completeOver g.pairs g.pairs rfl h

theorem Alike.perform {op op' : Operation} (hop : op.Alike op') :
    g.answer op = g'.answer op' ∧ (g.perform op).Alike (g'.perform op') := by
  cases hop with
  | record hfact =>
      obtain ⟨hgrown, halike⟩ := h.record hfact
      exact ⟨congrArg Answer.appended hgrown, halike⟩
  | refl =>
      cases op with
      | addAtom name => exact ⟨rfl, h.insert _⟩
      | addBox name content => exact ⟨rfl, h.insert _⟩
      | connect pair => exact ⟨rfl, h.connect pair⟩
      | record fact =>
          obtain ⟨hgrown, halike⟩ := h.record (rfl : fact.signed = fact.signed)
          exact ⟨congrArg Answer.appended hgrown, halike⟩
      | complete =>
          obtain ⟨hcount, halike⟩ := h.complete
          exact ⟨congrArg Answer.inferred hcount, halike⟩
      | clear => exact ⟨rfl, .refl _⟩

/-- Operations that are the same but for kinds have the same answers, and keep the graphs the
same. -/
theorem Alike.performAll {ops ops' : List Operation}
    (hops : List.Forall₂ Operation.Alike ops ops') :
    g.answers ops = g'.answers ops' ∧ (g.performAll ops).Alike (g'.performAll ops') := by
  induction hops generalizing g g' with
  | nil => exact ⟨rfl, h⟩
  | cons hop _ ih =>
      obtain ⟨hanswer, halike⟩ := h.perform hop
      obtain ⟨hanswers, hall⟩ := ih halike
      exact ⟨congrArg₂ List.cons hanswer hanswers, hall⟩

/-- No view of the graphs tells them apart, except for the kinds. -/
theorem Alike.views : g.SameViews g' where
  concepts := h.concepts
  pairs := h.pairs
  facts := h.facts
  states := h.state?
  stateTable := by simp only [Graph.stateTable, h.pairs, h.state?]
  neighbours := fun name => by
    have hconcept : g.concept? = g'.concept? := funext h.concept?
    simp only [Graph.neighbours, neighboursBy, pairsAbout, h.pairs, hconcept]
  neighboursWithState := fun name truth => by
    have hconcept : g.concept? = g'.concept? := funext h.concept?
    simp only [Graph.neighboursWithState, neighboursBy, pairsAbout, h.pairs, h.state?, hconcept]
  text := Chain.text_congr h.facts

end Operations

end Graph
end RelationLang
