import RelationLang.Catalogue
import RelationLang.Graph.Chain
import RelationLang.Graph.Concept

/-!
# Graphs

A graph holds concepts, pairs of their names, and the chain of facts about those pairs, each in
the order of creation. Nothing is stored twice: a name has one concept, which keeps the shape it
was first given, and a pair is stored once.

**Results.**
* `insert_concepts`, `connect_pairs`, `record_chain`: what each operation does to each list.
* `ext`: the three lists alone determine the graph.
-/

namespace RelationLang

/-- Concepts, pairs and facts in the order of their creation. -/
structure Graph where
  conceptStore : Catalogue Concept.name
  pairStore : Catalogue (id : Pair → Pair)
  chain : Chain
deriving DecidableEq, Repr, Inhabited

namespace Graph

def empty : Graph := ⟨∅, ∅, ∅⟩

def concepts (g : Graph) : List Concept := g.conceptStore.entries

def pairs (g : Graph) : List Pair := g.pairStore.entries

def facts (g : Graph) : List Fact := g.chain.facts

def names (g : Graph) : List String := g.concepts.map Concept.name

def concept? (g : Graph) (name : String) : Option Concept := g.conceptStore.find? name

def pair? (g : Graph) (pair : Pair) : Option Pair := g.pairStore.find? pair

/-- The state of a pair; a pair without facts has none. -/
def state? (g : Graph) (pair : Pair) : Option Bool := g.chain.state? pair

/-- Stores a concept, unless its name is taken. -/
def insert (g : Graph) (concept : Concept) : Graph :=
  { g with conceptStore := g.conceptStore.insert concept }

def addAtom (g : Graph) (name : String) : Graph := g.insert (.atom name)

def addBox (g : Graph) (name : String) (content : List Token) : Graph :=
  g.insert (.boxed name content)

def addAtoms (g : Graph) (names : List String) : Graph := names.foldl addAtom g

/-- Stores a pair, after the concepts of its subject and of its object. -/
def connect (g : Graph) (pair : Pair) : Graph :=
  let g := (g.addAtom pair.subject).addAtom pair.object
  { g with pairStore := g.pairStore.insert pair }

/-- Stores the pair of a fact and records the fact. The answer says whether the chain has
grown. -/
def record (g : Graph) (fact : Fact) : Bool × Graph :=
  let g := g.connect fact.pair
  let (appended, chain) := g.chain.record fact
  (appended, { g with chain })

def text (g : Graph) : String := g.chain.text

/-- The three lists alone determine the graph. -/
@[ext] theorem ext {g h : Graph} (hconcepts : g.concepts = h.concepts)
    (hpairs : g.pairs = h.pairs) (hfacts : g.facts = h.facts) : g = h := by
  obtain ⟨conceptStore, pairStore, chain⟩ := g
  obtain ⟨conceptStore', pairStore', chain'⟩ := h
  cases Catalogue.ext hconcepts
  cases Catalogue.ext hpairs
  cases Chain.ext hfacts
  rfl

@[simp] theorem concepts_empty : empty.concepts = [] := rfl

@[simp] theorem pairs_empty : empty.pairs = [] := rfl

@[simp] theorem facts_empty : empty.facts = [] := rfl

section Lookups

variable (g : Graph)

theorem pair?_eq (pair : Pair) : g.pair? pair = if pair ∈ g.pairs then some pair else none := by
  split
  · next h => exact g.pairStore.find?_eq_some_iff.mpr ⟨h, rfl⟩
  · next h =>
      refine g.pairStore.find?_eq_none_iff.mpr fun other hother hkey => ?_
      simp only [id] at hkey
      exact h (hkey ▸ hother)

@[simp] theorem pair?_isSome_iff (pair : Pair) :
    (g.pair? pair).isSome = true ↔ pair ∈ g.pairs := by
  by_cases h : pair ∈ g.pairs <;> simp [pair?_eq, h]

theorem names_nodup : g.names.Nodup := g.conceptStore.keys_nodup

theorem pairs_nodup : g.pairs.Nodup := by
  have h := g.pairStore.keys_nodup
  rwa [List.map_id] at h

/-- A pair is recorded once with each truth value. -/
theorem signed_nodup : (g.facts.map Fact.signed).Nodup := g.chain.signed_nodup

end Lookups

section Fields

variable (g : Graph)

@[simp] theorem insert_pairs (concept : Concept) : (g.insert concept).pairs = g.pairs := rfl

@[simp] theorem insert_chain (concept : Concept) : (g.insert concept).chain = g.chain := rfl

/-- Storing a concept appends it exactly when its name is new. -/
theorem insert_concepts (concept : Concept) :
    (g.insert concept).concepts =
      if concept.name ∈ g.names then g.concepts else g.concepts ++ [concept] := by
  have h : concept.name ∈ g.names ↔
      ∃ other ∈ g.conceptStore.entries, other.name = concept.name := List.mem_map
  simp only [h]
  exact g.conceptStore.entries_insert concept

@[simp] theorem addAtom_pairs (name : String) : (g.addAtom name).pairs = g.pairs := rfl

@[simp] theorem addAtom_chain (name : String) : (g.addAtom name).chain = g.chain := rfl

@[simp] theorem addBox_pairs (name : String) (content : List Token) :
    (g.addBox name content).pairs = g.pairs := rfl

@[simp] theorem addBox_chain (name : String) (content : List Token) :
    (g.addBox name content).chain = g.chain := rfl

@[simp] theorem addAtoms_pairs (names : List String) : (g.addAtoms names).pairs = g.pairs := by
  induction names generalizing g with
  | nil => rfl
  | cons name rest ih => exact (ih (g.addAtom name)).trans (g.addAtom_pairs name)

@[simp] theorem addAtoms_chain (names : List String) : (g.addAtoms names).chain = g.chain := by
  induction names generalizing g with
  | nil => rfl
  | cons name rest ih => exact (ih (g.addAtom name)).trans (g.addAtom_chain name)

@[simp] theorem connect_chain (pair : Pair) : (g.connect pair).chain = g.chain := rfl

/-- Storing a pair appends it exactly when it is new. -/
theorem connect_pairs (pair : Pair) :
    (g.connect pair).pairs = if pair ∈ g.pairs then g.pairs else g.pairs ++ [pair] := by
  have h : pair ∈ g.pairs ↔ ∃ other ∈ g.pairStore.entries, id other = id pair := by
    simp [pairs]
  simp only [h]
  exact g.pairStore.entries_insert pair

@[simp] theorem record_concepts (fact : Fact) :
    (g.record fact).2.concepts = (g.connect fact.pair).concepts := rfl

@[simp] theorem record_pairs (fact : Fact) :
    (g.record fact).2.pairs = (g.connect fact.pair).pairs := rfl

/-- Recording a fact changes the chain as the chain alone would change. -/
theorem record_chain (fact : Fact) :
    ((g.record fact).1, (g.record fact).2.chain) = g.chain.record fact := rfl

end Fields

end Graph
end RelationLang
