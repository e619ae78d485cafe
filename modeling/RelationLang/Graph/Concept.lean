import RelationLang.Program.Statement

/-!
# Concepts

A concept is what a name stands for: an atom, or a boxed piece of program text together with its
words.
-/

namespace RelationLang

/-- What a name stands for. -/
inductive Concept where
  | atom (name : String)
  /-- The words of a block, under a name of their own. -/
  | boxed (name : String) (content : List Token)
deriving DecidableEq, Repr, Inhabited

namespace Concept

def name : Concept → String
  | .atom name => name
  | .boxed name _ => name

/-- The words in a box; an atom has none. -/
def content? : Concept → Option (List Token)
  | .atom _ => none
  | .boxed _ content => some content

@[simp] theorem name_atom (n : String) : (Concept.atom n).name = n := rfl

@[simp] theorem name_boxed (n : String) (content : List Token) :
    (Concept.boxed n content).name = n := rfl

end Concept
end RelationLang
