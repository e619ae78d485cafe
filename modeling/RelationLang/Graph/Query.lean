import RelationLang.Graph.Basic
import RelationLang.Table
import RelationLang.Number.Binary64

/-!
# Questions to a graph

What is known about a name, and about the graph as a whole. A question about a name that is not
stored has an empty answer.

**Results.**
* `mem_factsAbout_iff`, `mem_pairsAbout_iff`: exactly the facts and pairs with the name.
-/

namespace RelationLang
namespace Graph

/-- The facts on pairs with a name, in chain order. -/
def factsAbout (g : Graph) (name : String) : List Fact :=
  g.facts.filter fun fact => fact.pair.hasEnd name

/-- The pairs with a name at one end, in the order of creation. -/
def pairsAbout (g : Graph) (name : String) : List Pair :=
  g.pairs.filter fun pair => pair.hasEnd name

/-- The concepts at the other ends of those pairs of a name that pass a test, each once, in the
order of the first such pair. -/
def neighboursBy (g : Graph) (name : String) (keep : Pair → Bool) : List Concept :=
  let kept := (g.pairsAbout name).filter keep
  (kept.filterMap fun pair => pair.opposite? name).eraseDups.filterMap g.concept?

/-- The concepts that share a pair with a name. -/
def neighbours (g : Graph) (name : String) : List Concept := g.neighboursBy name fun _ => true

/-- The concepts that share with a name a pair whose state is the given truth value. -/
def neighboursWithState (g : Graph) (name : String) (truth : Bool) : List Concept :=
  g.neighboursBy name fun pair => g.state? pair == some truth

/-- Truth values by subject, then by object. -/
abbrev StateTable := Table (Table Bool)

/-- Sets the truth value of one pair in a table of truth values. -/
def StateTable.record (table : StateTable) (pair : Pair) (truth : Bool) : StateTable :=
  table.set pair.subject (((table.get? pair.subject).getD {}).set pair.object truth)

/-- The known states of all pairs. -/
def stateTable (g : Graph) : StateTable :=
  g.pairs.foldl (fun table pair =>
    match g.state? pair with
    | some truth => StateTable.record table pair truth
    | none => table) {}

/-- The numbers of things in a graph. -/
structure Size where
  concepts : Nat
  pairs : Nat
  facts : Nat
deriving DecidableEq, Repr

/-- Facts per concept as a binary number; zero without concepts. -/
def Size.average (size : Size) : Number.Binary64 :=
  if size.concepts = 0 then .zero else .quotient size.facts size.concepts

def size (g : Graph) : Size := ⟨g.concepts.length, g.pairs.length, g.facts.length⟩

/-- Whether the chain has a line with this text. -/
def hasLine (g : Graph) (line : String) : Bool := g.chain.lines.contains line

theorem mem_factsAbout_iff {g : Graph} {name : String} {fact : Fact} :
    fact ∈ g.factsAbout name ↔ fact ∈ g.facts ∧ fact.pair.hasEnd name = true := by
  simp [factsAbout]

theorem mem_pairsAbout_iff {g : Graph} {name : String} {pair : Pair} :
    pair ∈ g.pairsAbout name ↔ pair ∈ g.pairs ∧ pair.hasEnd name = true := by
  simp [pairsAbout]

end Graph
end RelationLang
