import Mathlib.Algebra.Group.Nat.Defs
import Mathlib.Data.List.ProdSigma
import RelationLang.Proofs.Graph.Effect
import RelationLang.Proofs.Graph.Operation

/-!
# Consistency of graphs

The lists of a graph and its indexes are kept by different operations. This module shows that
they always fit together.

**Results.**
* `Grounded.perform`: each operation keeps the ends of pairs, and the pairs of facts, stored.
* `Reachable.consistent`: no list has repetitions, and nothing stored refers to anything missing.
* `scanned`: every look-up through an index answers what a scan of the list answers.
* `Consistent.pairs_length_le`, `Consistent.facts_length_le`: how many pairs and facts there can
  be.
-/

namespace RelationLang
namespace Graph

/-- The ends of all pairs, and the pairs of all facts, are stored. -/
structure Grounded (g : Graph) : Prop where
  ends : ∀ pair ∈ g.pairs, pair.subject ∈ g.names ∧ pair.object ∈ g.names
  facts : ∀ fact ∈ g.facts, fact.pair ∈ g.pairs

/-- Nothing is stored twice, and the ends of all pairs and the pairs of all facts are stored. -/
structure Consistent (g : Graph) : Prop extends Grounded g where
  names_nodup : g.names.Nodup
  pairs_nodup : g.pairs.Nodup
  signed_nodup : (g.facts.map Fact.signed).Nodup

/-- The indexes answer what a scan of the lists answers: a name has the only concept stored under
it, a pair is found if it is in the list, the latest fact of a pair is the last one on it, and a
fact is refused, without any change, if the list has one with its pair and truth value. -/
structure Scanned (g : Graph) : Prop where
  concept?_eq_some_iff : ∀ name concept,
    g.concept? name = some concept ↔ concept ∈ g.concepts ∧ concept.name = name
  concept?_eq_none_iff : ∀ name, g.concept? name = none ↔ name ∉ g.names
  pair?_isSome_iff : ∀ pair, (g.pair? pair).isSome = true ↔ pair ∈ g.pairs
  latest?_eq : ∀ pair,
    g.chain.latest? pair = (g.facts.filter fun fact => fact.pair = pair).getLast?
  refused_iff : ∀ fact, g.chain.record fact = (false, g.chain) ↔
    ∃ other ∈ g.facts, other.pair = fact.pair ∧ other.truth = fact.truth
  accepted_iff : ∀ fact, (g.chain.record fact).1 = true ↔
    ¬ ∃ other ∈ g.facts, other.pair = fact.pair ∧ other.truth = fact.truth

section Names

variable (g : Graph)

theorem mem_names_insert (concept : Concept) (name : String) :
    name ∈ (g.insert concept).names ↔ name ∈ g.names ∨ name = concept.name := by
  unfold names
  rw [insert_concepts]
  split
  · next h =>
      constructor
      · exact .inl
      · rintro (hname | rfl)
        · exact hname
        · exact h
  · simp

theorem mem_names_connect (pair : Pair) (name : String) :
    name ∈ (g.connect pair).names ↔
      name ∈ g.names ∨ name = pair.subject ∨ name = pair.object := by
  have h : (g.connect pair).names = ((g.addAtom pair.subject).addAtom pair.object).names := rfl
  rw [h, addAtom, mem_names_insert, addAtom, mem_names_insert, or_assoc]
  rfl

theorem mem_pairs_connect (pair other : Pair) :
    other ∈ (g.connect pair).pairs ↔ other ∈ g.pairs ∨ other = pair := by
  rw [connect_pairs]
  split
  · next h =>
      constructor
      · exact .inl
      · rintro (hother | rfl)
        · exact hother
        · exact h
  · simp

theorem mem_pairs_recordAll (g : Graph) (facts : List Fact) (pair : Pair) :
    pair ∈ (g.recordAll facts).pairs ↔ pair ∈ g.pairs ∨ ∃ fact ∈ facts, fact.pair = pair := by
  induction facts generalizing g with
  | nil => simp
  | cons fact rest ih =>
      rw [recordAll_cons, ih, record_pairs, mem_pairs_connect, or_assoc]
      simp [eq_comm]

/-- A recorded fact is one that was recorded before, or the new one. -/
theorem mem_facts_record {fact other : Fact} (h : other ∈ (g.record fact).2.facts) :
    other ∈ g.facts ∨ other = fact := by
  rw [record_facts] at h
  split at h
  · exact .inl h
  · simpa using h

end Names

section Steps

variable {g : Graph}

theorem grounded_empty : empty.Grounded := ⟨by simp, by simp⟩

theorem Grounded.insert (h : g.Grounded) (concept : Concept) : (g.insert concept).Grounded where
  ends pair hpair := by
    obtain ⟨hsubject, hobject⟩ := h.ends pair hpair
    exact ⟨(g.mem_names_insert concept _).mpr (.inl hsubject),
      (g.mem_names_insert concept _).mpr (.inl hobject)⟩
  facts := h.facts

theorem Grounded.connect (h : g.Grounded) (pair : Pair) : (g.connect pair).Grounded where
  ends other hother := by
    simp only [mem_names_connect]
    rcases (g.mem_pairs_connect pair other).mp hother with hother | rfl
    · obtain ⟨hsubject, hobject⟩ := h.ends other hother
      exact ⟨.inl hsubject, .inl hobject⟩
    · simp
  facts fact hfact := (g.mem_pairs_connect pair _).mpr (.inl (h.facts fact hfact))

theorem Grounded.record (h : g.Grounded) (fact : Fact) : (g.record fact).2.Grounded where
  ends := (h.connect fact.pair).ends
  facts other hother := by
    rw [record_pairs, mem_pairs_connect]
    rcases g.mem_facts_record hother with hother | rfl
    · exact .inl (h.facts other hother)
    · exact .inr rfl

theorem Grounded.derive (h : g.Grounded) (base : Pair) (latest : Option Fact) (dependent : Pair) :
    (g.derive base latest dependent).2.Grounded := by
  unfold Graph.derive
  split
  · exact h
  · exact h.record _

/-- Each operation keeps the ends of pairs, and the pairs of facts, stored. -/
theorem Grounded.perform (h : g.Grounded) (op : Operation) : (g.perform op).Grounded := by
  cases op with
  | addAtom name => exact h.insert _
  | addBox name content => exact h.insert _
  | connect pair => exact h.connect pair
  | record fact => exact h.record fact
  | complete => exact g.complete_induction h fun _ _ _ _ _ hnow _ _ => hnow.derive _ _ _
  | clear => exact grounded_empty

theorem Grounded.performAll (h : g.Grounded) (ops : List Operation) :
    (g.performAll ops).Grounded := by
  induction ops generalizing g with
  | nil => exact h
  | cons op rest ih => exact ih (h.perform op)

end Steps

section Results

variable {g : Graph}

/-- No list has repetitions, and nothing stored refers to anything missing. -/
theorem Reachable.consistent (h : g.Reachable) : g.Consistent := by
  obtain ⟨ops, rfl⟩ := h
  exact
    { toGrounded := grounded_empty.performAll ops
      names_nodup := Graph.names_nodup _
      pairs_nodup := Graph.pairs_nodup _
      signed_nodup := Graph.signed_nodup _ }

theorem records_iff (g : Graph) (fact : Fact) :
    g.chain.Records fact.signed ↔
      ∃ other ∈ g.facts, other.pair = fact.pair ∧ other.truth = fact.truth := by
  simp [Chain.Records, Fact.signed, facts]

/-- Every look-up through an index answers what a scan of the list answers. -/
theorem scanned (g : Graph) : g.Scanned where
  concept?_eq_some_iff name concept := g.conceptStore.find?_eq_some_iff
  concept?_eq_none_iff name := by
    rw [show g.concept? name = g.conceptStore.find? name from rfl,
      Catalogue.find?_eq_none_iff]
    simp [names, concepts]
  pair?_isSome_iff := g.pair?_isSome_iff
  latest?_eq pair := by
    rw [Chain.latest?_eq_findRev?, List.findRev?_eq_find?_reverse, ← List.head?_filter,
      List.filter_reverse, List.head?_reverse]
    rfl
  refused_iff fact := by
    rw [← records_iff]
    rcases g.chain.record_eq fact with ⟨hold, hrecord⟩ | ⟨hnew, hrecord⟩
    · simp [hrecord, hold]
    · simp [hrecord, hnew]
  accepted_iff fact := by
    rw [← records_iff]
    rcases g.chain.record_eq fact with ⟨hold, hrecord⟩ | ⟨hnew, hrecord⟩
    · simp [hrecord, hold]
    · simp [hrecord, hnew]

/-- There are at most as many pairs as ways to choose two names. -/
theorem Consistent.pairs_length_le (h : g.Consistent) :
    g.pairs.length ≤ g.concepts.length ^ 2 := by
  have hsub : g.pairs ⊆ (g.names ×ˢ g.names).map fun ends => Pair.mk ends.1 ends.2 := by
    intro pair hpair
    exact List.mem_map.mpr ⟨(pair.subject, pair.object), by simpa using h.ends pair hpair, rfl⟩
  calc g.pairs.length
      ≤ ((g.names ×ˢ g.names).map fun ends => Pair.mk ends.1 ends.2).length :=
        h.pairs_nodup.length_le_of_subset hsub
    _ = g.concepts.length ^ 2 := by simp [names, List.length_product, Nat.pow_two]

/-- There are at most two facts on each pair. -/
theorem Consistent.facts_length_le (h : g.Consistent) :
    g.facts.length ≤ 2 * g.pairs.length := by
  have hsub : g.facts.map Fact.signed ⊆
      (g.pairs ×ˢ [true, false]).map fun sign => SignedPair.mk sign.1 sign.2 := by
    intro signed hsigned
    obtain ⟨fact, hfact, rfl⟩ := List.mem_map.mp hsigned
    exact List.mem_map.mpr ⟨(fact.pair, fact.truth), by simpa using h.facts fact hfact, rfl⟩
  calc g.facts.length
      = (g.facts.map Fact.signed).length := by simp
    _ ≤ ((g.pairs ×ˢ [true, false]).map fun sign => SignedPair.mk sign.1 sign.2).length :=
        h.signed_nodup.length_le_of_subset hsub
    _ = 2 * g.pairs.length := by simp [List.length_product, Nat.mul_comm]

end Results

end Graph
end RelationLang
