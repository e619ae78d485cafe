import RelationLang.Error
import RelationLang.Graph.Basic

/-!
# Hooks

A hook is the meaning of a reserved word. It receives the line in which the word was found, and
may read and change everything that a run works on. It answers with the next line to run, or with
nothing, or with an error; what it has changed before an error stays changed.

**Results.**
* `next_ofTokens`: nothing is lost when tokens become an outcome.
-/

namespace RelationLang

/-- A line of tokens together with the block it heads. -/
structure Clause where
  tokens : List Token
  /-- The lines of the block, if the line is a header. -/
  block : Option (List Token) := none
deriving DecidableEq, Repr, Inhabited

/-- What a run works on. Hooks of their own kind keep what they remember in a `μ`. -/
structure Store (μ : Type) where
  graph : Graph
  /-- The lines of output, oldest first. -/
  said : List String
  memory : μ
deriving DecidableEq, Repr, Inhabited

/-- What a hook hands back. -/
inductive Outcome where
  | done
  /-- These tokens are the next line. -/
  | proceed (tokens : List Token)
deriving DecidableEq, Repr, Inhabited

/-- The meaning of a reserved word. -/
structure Hook (μ : Type) where
  /-- The reserved word the hook goes by. -/
  verb : String
  /-- Runs the hook on a line and the block under it. -/
  run : Clause → Store μ → Except Error Outcome × Store μ

namespace Outcome

/-- Proceeds with tokens if there are any. -/
def ofTokens : List Token → Outcome
  | [] => .done
  | tokens => .proceed tokens

/-- The tokens to run next; none ends the line. -/
def next : Outcome → List Token
  | .done => []
  | .proceed tokens => tokens

/-- Nothing is lost when tokens become an outcome. -/
@[simp] theorem next_ofTokens (tokens : List Token) : (ofTokens tokens).next = tokens := by
  cases tokens <;> rfl

end Outcome

namespace Store

variable {μ : Type}

def fresh (memory : μ) : Store μ := ⟨.empty, [], memory⟩

def emit (store : Store μ) (lines : List String) : Store μ :=
  { store with said := store.said ++ lines }

def mapGraph (store : Store μ) (f : Graph → Graph) : Store μ :=
  { store with graph := f store.graph }

/-- The output as the text of a terminal, one line after the other. -/
def transcript (store : Store μ) : String := String.join (store.said.map (· ++ "\n"))

end Store
end RelationLang
