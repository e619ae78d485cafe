import RelationLang.Graph.Pair

/-!
# Facts

A fact says of a pair that it holds or that it does not hold. Its kind is a remark that no rule
looks at.
-/

namespace RelationLang

/-- The remark on a fact: what sort of relationship was stated. -/
inductive FactKind where
  /-- Stated with `is` or `isnt`. -/
  | identity
  /-- Stated with `has` or `hasnt`. -/
  | property
deriving DecidableEq, Repr, Inhabited

/-- A signed statement about a pair. -/
structure Fact where
  pair : Pair
  truth : Bool
  kind : FactKind := .identity
deriving DecidableEq, Repr, Inhabited

namespace Fact

/-- What a fact says, its kind aside. -/
def signed (fact : Fact) : SignedPair := ⟨fact.pair, fact.truth⟩

/-- The word that stands for a truth value in the text of a fact. -/
def word (truth : Bool) : String := if truth then "is" else "isnt"

/-- The fact as a line of a program. -/
def text (fact : Fact) : String :=
  fact.pair.subject ++ " " ++ word fact.truth ++ " " ++ fact.pair.object

end Fact
end RelationLang
