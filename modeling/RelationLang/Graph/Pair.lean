import Std.Data.ExtTreeMap

/-!
# Pairs of names

A pair is ordered: its subject and its object are told apart, and `(a, b)` and `(b, a)` are
different pairs. A signed pair adds a truth value.

**Results.**
* `hasEnd_iff_opposite?_isSome`: there is an end opposite to a name exactly when the name is one
  of the ends.
-/

namespace RelationLang

/-- An ordered pair of names. -/
structure Pair where
  subject : String
  object : String
deriving DecidableEq, Repr, Inhabited

namespace Pair

def isLoop (pair : Pair) : Bool := pair.subject == pair.object

def hasEnd (pair : Pair) (name : String) : Bool := pair.subject == name || pair.object == name

/-- The end opposite to a name, if the name is one of its ends. -/
def opposite? (pair : Pair) (name : String) : Option String :=
  if pair.subject = name then some pair.object
  else if pair.object = name then some pair.subject
  else none

/-- The pair in round brackets. -/
def text (pair : Pair) : String := "(" ++ pair.subject ++ ", " ++ pair.object ++ ")"

/-- The order of pairs by subject, then by object, both by code points. -/
def order (p q : Pair) : Ordering :=
  (compare p.subject q.subject).then (compare p.object q.object)

/-- A pair has an end opposite to a name exactly when the name is one of its ends. -/
theorem hasEnd_iff_opposite?_isSome {pair : Pair} {name : String} :
    pair.hasEnd name = true ↔ (pair.opposite? name).isSome = true := by
  by_cases hs : pair.subject = name <;> by_cases ho : pair.object = name <;>
    simp [hasEnd, opposite?, hs, ho]

instance : Ord Pair := ⟨order⟩

instance : Std.TransOrd Pair :=
  inferInstanceAs (Std.TransCmp (compareLex (compareOn subject) (compareOn object)))

instance : Std.LawfulEqOrd Pair where
  eq_of_compare {p q} h := by
    obtain ⟨hs, ho⟩ := Ordering.then_eq_eq.mp h
    cases p
    cases q
    cases Std.LawfulEqOrd.eq_of_compare hs
    cases Std.LawfulEqOrd.eq_of_compare ho
    rfl

end Pair

/-- A pair with a truth value. -/
structure SignedPair where
  pair : Pair
  truth : Bool
deriving DecidableEq, Repr, Inhabited

namespace SignedPair

instance : Ord SignedPair := ⟨compareLex (compareOn pair) (compareOn truth)⟩

instance : Std.TransOrd SignedPair :=
  inferInstanceAs (Std.TransCmp (compareLex (compareOn pair) (compareOn truth)))

instance : Std.LawfulEqOrd SignedPair where
  eq_of_compare {p q} h := by
    obtain ⟨hp, ht⟩ := Ordering.then_eq_eq.mp h
    cases p
    cases q
    cases Std.LawfulEqOrd.eq_of_compare hp
    cases Std.LawfulEqOrd.eq_of_compare ht
    rfl

end SignedPair
end RelationLang
