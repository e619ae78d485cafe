import RelationLang.Graph.Basic

/-!
# Completing a graph

Two pairs `(x, a)` and `(a, b)` in a row suggest the pair `(x, b)`. One pass over a graph adds
the suggested pairs that are missing, each with a fact.

**Algorithm.**  The pass walks over the pairs that are stored when it starts, as bases `(a, b)`.
For each base it walks over the same pairs again, for the dependents `(x, a)` with a known state.
The missing pair `(x, b)` gets the state of `(x, a)` if the base holds, and its negation if the
base does not hold or has no facts. It takes the kind of the base's latest fact. Pairs of a name
with itself are not added. Pairs made in a pass are not bases or dependents of that pass.

**Results.**
* `suggestion?_eq_some_iff`: when the rule suggests a fact, and which one.
-/

namespace RelationLang
namespace Graph

/-- The truth passed on from a dependent through a base. -/
def inheritedTruth (base : Option Fact) (dependent : Bool) : Bool :=
  if base.map (·.truth) = some true then dependent else !dependent

/-- The kind passed on from a base; identity if the base has no facts. -/
def inheritedKind (base : Option Fact) : FactKind := (base.map (·.kind)).getD .identity

/-- The fact that a base, whose latest fact is given, and a dependent suggest for the missing
pair; none if they do not meet, the dependent has no facts, or the pair is a loop or stored. -/
def suggestion? (g : Graph) (base : Pair) (latest : Option Fact) (dependent : Pair) :
    Option Fact :=
  let target : Pair := ⟨dependent.subject, base.object⟩
  if dependent.object ≠ base.subject then none
  else if target.isLoop || (g.pair? target).isSome then none
  else (g.state? dependent).map fun state =>
    ⟨target, inheritedTruth latest state, inheritedKind latest⟩

/-- Applies the rule to one base, whose latest fact is given, and one dependent. The answer says
whether a fact was appended. -/
def derive (g : Graph) (base : Pair) (latest : Option Fact) (dependent : Pair) : Bool × Graph :=
  match g.suggestion? base latest dependent with
  | none => (false, g)
  | some fact => g.record fact

/-- Applies the rule to one base and each of the dependents in turn, counting appended facts. -/
def completeWith (base : Pair) (latest : Option Fact) : List Pair → Nat × Graph → Nat × Graph
  | [], acc => acc
  | dependent :: rest, (count, g) =>
    let (appended, g) := g.derive base latest dependent
    completeWith base latest rest (count + appended.toNat, g)

/-- Applies the rule to each of the bases in turn, with the dependents of a given list. -/
def completeOver (dependents : List Pair) : List Pair → Nat × Graph → Nat × Graph
  | [], acc => acc
  | base :: rest, (count, g) =>
    completeOver dependents rest (completeWith base (g.chain.latest? base) dependents (count, g))

/-- One pass over the pairs of the graph. The answer is the number of facts appended. -/
def complete (g : Graph) : Nat × Graph := completeOver g.pairs g.pairs (0, g)

/-- The rule suggests a fact when the two pairs meet, the target is neither a loop nor stored,
and the state of the dependent is known. -/
theorem suggestion?_eq_some_iff {g : Graph} {base dependent : Pair} {latest : Option Fact}
    {fact : Fact} :
    g.suggestion? base latest dependent = some fact ↔
      dependent.object = base.subject ∧ dependent.subject ≠ base.object ∧
        ⟨dependent.subject, base.object⟩ ∉ g.pairs ∧
          ∃ state, g.state? dependent = some state ∧
            ⟨⟨dependent.subject, base.object⟩, inheritedTruth latest state,
              inheritedKind latest⟩ = fact := by
  unfold suggestion?
  by_cases hmeet : dependent.object = base.subject
  · by_cases hloop : dependent.subject = base.object
    · simp [hmeet, hloop, Pair.isLoop]
    · by_cases hstored : (⟨dependent.subject, base.object⟩ : Pair) ∈ g.pairs
      · simp [hmeet, hstored]
      · simp [hmeet, hloop, hstored, Pair.isLoop, pair?_eq]
  · simp [hmeet]

end Graph
end RelationLang
