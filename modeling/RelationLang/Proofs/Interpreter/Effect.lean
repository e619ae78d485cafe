import RelationLang.Interpreter
import RelationLang.Proofs.Graph.Effect

/-!
# What a turn leaves behind

**Input.**  A store, and something that the interpreter or a standard word does to it.

**Algorithm.**  A store is known by its graph, by the lines said and by what the hooks remember, so
that a description of these three fits one store only.

**Results.**
* `alters_atoms_iff`, `alters_fact_iff`, `boxes_iff`: of what changes the graph alone.
* `says_iff`: lines are said after those that have been said before.
* `refusal?_eq_some_iff`, `refusal?_eq_none_iff`: a continuation is refused exactly when there is a
  limit that its number exceeds.
-/

namespace RelationLang

open Program Text

namespace Store

variable {μ : Type}

section Definitions

/-- The graph of a store changes as described, and nothing else changes. -/
structure Alters (change : Graph → Graph → Prop) (store after : Store μ) : Prop where
  graph : change store.graph after.graph
  said : after.said = store.said
  memory : after.memory = store.memory

/-- Lines are said, and nothing else changes. -/
structure Says (lines : List String) (store after : Store μ) : Prop where
  graph : after.graph = store.graph
  said : after.said = store.said ++ lines
  memory : after.memory = store.memory

/-- The words of tokens are stored as a box whose name is their text. -/
def Boxes (tokens : List Token) (store after : Store μ) : Prop :=
  store.Alters (Graph.BoxStored (unwords (allWords tokens)) (allWords tokens)) after

end Definitions

variable {store after : Store μ}

@[ext] theorem ext (hgraph : store.graph = after.graph) (hsaid : store.said = after.said)
    (hmemory : store.memory = after.memory) : store = after := by
  obtain ⟨graph, said, memory⟩ := store
  obtain rfl := hgraph
  obtain rfl := hsaid
  obtain rfl := hmemory
  rfl

/-- If a description fits what an operation gives and nothing else, then so it does in a store. -/
theorem alters_iff {change : Graph → Graph → Prop} {f : Graph → Graph}
    (h : ∀ g g', change g g' ↔ g' = f g) :
    store.Alters change after ↔ after = store.mapGraph f := by
  constructor
  · intro halters
    exact ext ((h _ _).mp halters.graph) halters.said halters.memory
  · rintro rfl
    exact ⟨(h _ _).mpr rfl, rfl, rfl⟩

theorem alters_atoms_iff {names : List String} :
    store.Alters (Graph.AtomsStored names) after ↔
      after = store.mapGraph fun g => g.addAtoms names :=
  alters_iff fun _ _ => Graph.atomsStored_iff

theorem alters_fact_iff {fact : Fact} :
    store.Alters (Graph.FactStored fact) after ↔
      after = store.mapGraph fun g => (g.record fact).2 :=
  alters_iff fun _ _ => Graph.factStored_iff

theorem boxes_iff {tokens : List Token} :
    store.Boxes tokens after ↔ after = Interpreter.box tokens store := by
  have hbox : ∀ g g', Graph.BoxStored (unwords (allWords tokens)) (allWords tokens) g g' ↔
      g' = g.addBox (unwords (allWords tokens)) (allWords tokens) :=
    fun _ _ => Graph.boxStored_iff
  exact alters_iff hbox

theorem says_iff {lines : List String} : store.Says lines after ↔ after = store.emit lines := by
  constructor
  · intro hsays
    exact ext hsays.graph hsays.said hsays.memory
  · rintro rfl
    exact ⟨rfl, rfl, rfl⟩

end Store

namespace Interpreter

variable {μ : Type} {i : Interpreter μ} {continued : Nat}

theorem refusal?_eq_some_iff {error : Error} :
    i.refusal? continued = some error ↔
      ∃ limit, i.limit = some limit ∧ limit < continued ∧ error = .continuationLimit limit := by
  rw [refusal?]
  cases i.limit with
  | none => simp
  | some limit => simp [eq_comm]

theorem refusal?_eq_none_iff :
    i.refusal? continued = none ↔ ∀ limit, i.limit = some limit → continued ≤ limit := by
  rw [refusal?]
  cases i.limit with
  | none => simp
  | some limit => simp

end Interpreter
end RelationLang
