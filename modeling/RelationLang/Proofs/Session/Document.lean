import RelationLang.Proofs.Graph.StateTable
import RelationLang.Proofs.Json.Pretty
import RelationLang.Session

/-!
# What the document of a session shows

The document shows the facts of the graph, in order, and how many concepts and pairs there are.
Everything else in it follows from these.

**Results.**
* `Fact.toJson_injective`: a fact is known from its JSON value.
* `Graph.toJson_eq_iff`: two graphs have one value exactly when they agree in what it shows.
* `Session.document_eq_iff`: so have two documents as texts.
-/

namespace RelationLang

theorem FactKind.name_injective : Function.Injective FactKind.name := by
  intro kind other h
  cases kind <;> cases other
  · rfl
  · exact absurd h (by decide)
  · exact absurd h (by decide)
  · rfl

/-- A fact is known from its JSON value. -/
theorem Fact.toJson_injective : Function.Injective Fact.toJson := by
  rintro ⟨⟨subject, object⟩, truth, kind⟩ ⟨⟨subject', object'⟩, truth', kind'⟩ h
  simp only [Fact.toJson, Pair.toJson, Json.object.injEq, List.cons.injEq, Prod.mk.injEq,
    Json.string.injEq, Json.bool.injEq, true_and, and_true] at h
  obtain ⟨⟨rfl, rfl⟩, rfl, hkind⟩ := h
  obtain rfl := FactKind.name_injective hkind
  rfl

theorem Json.nat_injective : Function.Injective Json.nat := by
  intro m n h
  have hdecimal : Number.Decimal.ofNat m = .ofNat n := Json.number.inj h
  exact Int.ofNat_inj.mp (congrArg Number.Decimal.unscaled hdecimal)

namespace Graph

variable {g h : Graph}

/-- Sizes are known from their JSON values. -/
theorem Size.toJson_injective : Function.Injective Size.toJson := by
  rintro ⟨concepts, pairs, facts⟩ ⟨concepts', pairs', facts'⟩ h
  simp only [Size.toJson, Json.object.injEq, List.cons.injEq, Prod.mk.injEq, true_and] at h
  obtain ⟨hconcepts, hpairs, hfacts, _⟩ := h
  cases Json.nat_injective hconcepts
  cases Json.nat_injective hpairs
  cases Json.nat_injective hfacts
  rfl

/-- Two graphs have one JSON value exactly when their facts are the same, in order, and their
concepts and pairs are as many. -/
theorem toJson_eq_iff (hg : g.Grounded) (hh : h.Grounded) :
    g.toJson = h.toJson ↔
      g.facts = h.facts ∧ g.concepts.length = h.concepts.length ∧
        g.pairs.length = h.pairs.length := by
  constructor
  · intro heq
    simp only [toJson, Json.object.injEq, Json.array.injEq, List.cons.injEq, Prod.mk.injEq,
      true_and, and_true] at heq
    obtain ⟨hsize, _, hfacts⟩ := heq
    have hcounts := Size.toJson_injective hsize
    exact ⟨Fact.toJson_injective.list_map hfacts, congrArg Size.concepts hcounts,
      congrArg Size.pairs hcounts⟩
  · rintro ⟨hfacts, hconcepts, hpairs⟩
    have hsize : g.size = h.size := by rw [size, size, hconcepts, hpairs, hfacts]
    rw [toJson, toJson, hsize, stateTable_eq_of_facts hg hh hfacts, hfacts]

end Graph

namespace Session

variable {μ ν : Type}

/-- The documents of two sessions are the same text exactly when the facts of the graphs are the
same, in order, with their subjects, objects, truth values and kinds, and there are as many concepts
and as many pairs. -/
theorem document_eq_iff {session : Session μ} {other : Session ν}
    (h : session.store.graph.Reachable) (h' : other.store.graph.Reachable) :
    session.document = other.document ↔
      session.store.graph.facts = other.store.graph.facts ∧
        session.store.graph.concepts.length = other.store.graph.concepts.length ∧
        session.store.graph.pairs.length = other.store.graph.pairs.length :=
  Json.pretty_injective.eq_iff.trans
    (Graph.toJson_eq_iff h.consistent.toGrounded h'.consistent.toGrounded)

/-- Two graphs with one fact, made in different ways, with other names and other pairs besides, have
one document. A fact whose subject is a piece of that document has another one. -/
theorem quoted_names_stay_names :
    ∃ session other forged : Session Unit, session.store.graph.Reachable ∧
      other.store.graph.Reachable ∧ forged.store.graph.Reachable ∧
      session.store.graph.facts = [⟨⟨"a", "b\"\n\\"⟩, true, .property⟩] ∧
      forged.store.graph.facts =
        [⟨⟨"a\",\n        \"object\": \"b\"\n\\", "b\"\n\\"⟩, true, .property⟩] ∧
      session.store.graph.concepts ≠ other.store.graph.concepts ∧
      session.store.graph.pairs ≠ other.store.graph.pairs ∧
      session.document = other.document ∧ session.document ≠ forged.document := by
  have hsession : (Graph.empty.performAll [.record ⟨⟨"a", "b\"\n\\"⟩, true, .property⟩,
      .connect ⟨"a", "c"⟩]).Reachable := ⟨_, rfl⟩
  have hother : (Graph.empty.performAll [.addBox "d" ["e"], .connect ⟨"a", "a"⟩,
      .record ⟨⟨"a", "b\"\n\\"⟩, true, .property⟩]).Reachable := ⟨_, rfl⟩
  have hforged : (Graph.empty.performAll
      [.record ⟨⟨"a\",\n        \"object\": \"b\"\n\\", "b\"\n\\"⟩, true, .property⟩,
        .connect ⟨"a", "a"⟩]).Reachable := ⟨_, rfl⟩
  refine ⟨⟨.empty, {}, ⟨_, [], ()⟩⟩, ⟨.empty, {}, ⟨_, [], ()⟩⟩, ⟨.empty, {}, ⟨_, [], ()⟩⟩,
    hsession, hother, hforged, by decide, by decide, by decide, by decide, ?_, ?_⟩
  · exact (document_eq_iff hsession hother).mpr (by decide)
  · exact mt (document_eq_iff hsession hforged).mp (by decide)

end Session
end RelationLang
