import RelationLang.Proofs.Graph.Kinds
import RelationLang.Proofs.Interpreter.Lockstep
import RelationLang.Verb

/-!
# Programs and the kinds of facts

**Input.**  The same program, run with relationship words that give their facts different kinds.

**Algorithm.**  A guard asks for a state, an assertion records a pair with a truth value, and a
completion pass looks at pairs and states. So two such runs go in lockstep.

**Results.**
* `lockstep_withKinds`: two interpreters that differ in the kinds keep their stores the same but for
  these.
* `kinds_are_remarks`: neither operations on graphs nor programs depend on the kinds of facts.
-/

namespace RelationLang

section Definitions

/-- The same stores, but for the kinds of facts. -/
structure Store.Alike {μ : Type} (store store' : Store μ) : Prop where
  graph : store.graph.Alike store'.graph
  said : store.said = store'.said
  memory : store.memory = store'.memory

/-- The interpreter with the standard words, of which the relationship words give their facts the
kinds `kinds`. -/
def Interpreter.withKinds {μ : Type} (kinds : Relation → FactKind) (limit : Option Nat) :
    Interpreter μ := ⟨.standardWithKinds kinds, limit⟩

end Definitions

section Words

variable {μ : Type}

/-- The kind that a word gives to its facts does not matter. -/
theorem matches_hookWithKind (relation : Relation) (kind kind' : FactKind) :
    Hook.Matches (Store.Alike (μ := μ)) (relation.hookWithKind kind)
      (relation.hookWithKind kind') := by
  intro clause store store' hstore
  simp only [Relation.hookWithKind]
  cases relation.use clause.tokens with
  | guard pair rest =>
      simp only [hstore.graph.state?]
      split
      · exact ⟨rfl, hstore⟩
      · exact ⟨rfl, hstore⟩
  | assertion pair =>
      have hfact : (Fact.mk pair relation.truth kind).signed =
          (Fact.mk pair relation.truth kind').signed := rfl
      exact ⟨rfl, (hstore.graph.record hfact).2, hstore.said, hstore.memory⟩
  | misuse => exact ⟨rfl, hstore⟩

theorem matches_sayHook : Hook.Matches (Store.Alike (μ := μ)) sayHook sayHook := by
  intro clause store store' hstore
  simp only [sayHook]
  split
  · exact ⟨rfl, hstore⟩
  · refine ⟨rfl, hstore.graph, ?_, hstore.memory⟩
    simp only [Store.emit, hstore.said]

theorem matches_hookWithKinds (kinds kinds' : Relation → FactKind) (verb : Verb) :
    Hook.Matches (Store.Alike (μ := μ)) (verb.hookWithKinds kinds)
      (verb.hookWithKinds kinds') := by
  cases verb with
  | relation relation => exact matches_hookWithKind relation _ _
  | say => exact matches_sayHook

end Words

namespace Interpreter

section Programs

variable {μ : Type}

/-- Interpreters that differ in the kinds keep their stores the same but for these. -/
theorem lockstep_withKinds (kinds kinds' : Relation → FactKind) (limit : Option Nat) :
    (withKinds kinds limit).Lockstep (Store.Alike (μ := μ)) (withKinds kinds' limit) where
  limit := rfl
  hooks := fun word => by
    simp only [withKinds, Vocabulary.hook?_standardWithKinds]
    cases Verb.ofWord? word with
    | none => exact .none
    | some verb => exact .some (matches_hookWithKinds kinds kinds' verb)
  atoms := fun tokens hstore => ⟨hstore.graph.addAtoms tokens, hstore.said, hstore.memory⟩
  box := fun _ hstore => ⟨hstore.graph.insert _, hstore.said, hstore.memory⟩
  complete := fun hstore =>
    ⟨hstore.graph.complete.1, hstore.graph.complete.2, hstore.said, hstore.memory⟩

end Programs

end Interpreter

/-- Operations that are the same but for kinds, performed on graphs that are the same but for kinds,
have the same answers, and leave graphs that no view tells apart. Programs whose relationship
words give other kinds to their facts have the same errors, invocations, counts and output, and
leave the same graph but for the kinds. -/
theorem kinds_are_remarks :
    (∀ (g g' : Graph) (ops ops' : List Operation), g.Alike g' →
        List.Forall₂ Operation.Alike ops ops' →
          g.answers ops = g'.answers ops' ∧
            (g.performAll ops).SameViews (g'.performAll ops')) ∧
      ∀ {μ : Type} (kinds kinds' : Relation → FactKind) (limit : Option Nat) (turns : Nat)
        (text : String) (store store' : Store μ), store.Alike store' →
          Option.Rel (Report.Matches Store.Alike)
            ((Interpreter.withKinds kinds limit).source turns text store)
            ((Interpreter.withKinds kinds' limit).source turns text store') := by
  refine ⟨fun g g' ops ops' halike hops => ?_, ?_⟩
  · obtain ⟨hanswers, hgraphs⟩ := halike.performAll hops
    exact ⟨hanswers, hgraphs.views⟩
  · intro μ kinds kinds' limit turns text store store' hstore
    exact (Interpreter.lockstep_withKinds kinds kinds' limit).program turns _ hstore

/-- Two graphs whose second fact differs in its kind, and with it the third, which is inferred; and
a program that is run with the kinds of its words exchanged. -/
theorem kinds_exchanged :
    let ops : List Operation := [.record ⟨⟨"cat", "animal"⟩, true, .identity⟩,
      .record ⟨⟨"animal", "fur"⟩, true, .property⟩, .complete]
    let ops' : List Operation := [.record ⟨⟨"cat", "animal"⟩, true, .identity⟩,
      .record ⟨⟨"animal", "fur"⟩, true, .identity⟩, .complete]
    let exchanged : Relation → FactKind
      | .is | .isnt => .property
      | .has | .hasnt => .identity
    (Graph.empty.performAll ops).facts ≠ (Graph.empty.performAll ops').facts ∧
      Graph.empty.answers ops = Graph.empty.answers ops' ∧
      (Graph.empty.performAll ops).SameViews (Graph.empty.performAll ops') ∧
      Option.Rel (Report.Matches Store.Alike)
        ((Interpreter.withKinds Relation.kind none).source 4
          "cat is animal\nanimal has fur\nhas cat fur say soft" (.fresh ()))
        ((Interpreter.withKinds exchanged none).source 4
          "cat is animal\nanimal has fur\nhas cat fur say soft" (.fresh ())) := by
  intro ops ops' exchanged
  have hops : List.Forall₂ Operation.Alike ops ops' :=
    .cons (.refl _) (.cons (.record rfl) (.cons (.refl _) .nil))
  obtain ⟨hanswers, hviews⟩ := kinds_are_remarks.1 .empty .empty ops ops' (.refl _) hops
  exact ⟨by decide, hanswers, hviews,
    kinds_are_remarks.2 _ _ _ _ _ _ _ ⟨.refl _, rfl, rfl⟩⟩

end RelationLang
