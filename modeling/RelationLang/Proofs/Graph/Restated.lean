import Mathlib.Data.List.Nodup
import RelationLang.Proofs.Graph.Consistency
import RelationLang.Proofs.Graph.Growth

/-!
# Facts stated again

**Input.**  The facts of one graph, in order.

**Algorithm.**  Another graph, which is empty at first, records them one after the other, all as
facts of the kind identity, with a completion pass after each. A pass may attempt facts that the
first graph has not, and may attempt a fact on a pair before the pair's own turn has come, also
with the opposite truth value.

**Results.**
* `state?_complete`: a pass does not change the states of stored pairs.
* `OneSided.restate`: passes alone record at most one truth value on a pair.
* `records_restate_facts`: all the facts end up in the other graph.
* `state?_restate_facts`: a pair that occurs with one truth value ends up in this state.
-/

namespace RelationLang

/-- The fact without its remark. -/
def Fact.plain (fact : Fact) : Fact := { fact with kind := .identity }

namespace Graph

section Definitions

/-- The graph after recording facts in order, with a completion pass after each. -/
def restate (g : Graph) (facts : List Fact) : Graph :=
  facts.foldl (fun g fact => (g.record fact.plain).2.complete.2) g

/-- At most one truth value is recorded on a pair. -/
def OneSided (g : Graph) (pair : Pair) : Prop :=
  ∀ a b, g.chain.Records ⟨pair, a⟩ → g.chain.Records ⟨pair, b⟩ → a = b

end Definitions

section Steps

variable {g : Graph} {pair : Pair} {fact : Fact}

@[simp] theorem restate_cons (g : Graph) (fact : Fact) (facts : List Fact) :
    g.restate (fact :: facts) = (g.record fact.plain).2.complete.2.restate facts := rfl

theorem restate_append (g : Graph) (before after : List Fact) :
    g.restate (before ++ after) = (g.restate before).restate after :=
  List.foldl_append

theorem records_record (g : Graph) (fact : Fact) (signed : SignedPair) :
    (g.record fact).2.chain.Records signed ↔ g.chain.Records signed ∨ signed = fact.signed :=
  g.chain.records_record fact signed

theorem grows_restate (g : Graph) (facts : List Fact) : g.Grows (g.restate facts) := by
  induction facts generalizing g with
  | nil => exact .refl g
  | cons fact rest ih =>
      exact ((g.grows_record fact.plain).trans (grows_complete _)).trans (ih _)

theorem Grows.records {h : Graph} (hgrows : g.Grows h) {signed : SignedPair}
    (hsigned : g.chain.Records signed) : h.chain.Records signed := by
  obtain ⟨fact, hfact, rfl⟩ := List.mem_map.mp hsigned
  exact List.mem_map_of_mem (hgrows.facts.subset hfact)

theorem state?_record_of_ne (h : fact.pair ≠ pair) :
    (g.record fact).2.state? pair = g.state? pair := by
  have hchain : (g.record fact).2.state? pair = (g.chain.record fact).2.state? pair := rfl
  rw [hchain]
  rcases g.chain.record_eq fact with ⟨_, hrecord⟩ | ⟨hnew, hrecord⟩
  · rw [hrecord]
    rfl
  · rw [hrecord, Chain.state?_push, if_neg h]
    rfl

theorem oneSided_empty (pair : Pair) : empty.OneSided pair :=
  fun _ _ ha _ => (List.not_mem_nil ha).elim

/-- The only truth value recorded on a pair is its state. -/
theorem OneSided.state?_eq (h : g.OneSided pair) {truth : Bool}
    (hrecords : g.chain.Records ⟨pair, truth⟩) : g.state? pair = some truth := by
  obtain ⟨fact, hfact, hsigned⟩ := List.mem_map.mp hrecords
  have hpair : fact.pair = pair := congrArg SignedPair.pair hsigned
  obtain ⟨latest, hlatest⟩ := Option.isSome_iff_exists.mp
    (g.chain.latest?_isSome_iff.mpr ⟨fact, hfact, hpair⟩)
  have hstate : g.state? pair = some latest.truth := by
    rw [state?, Chain.state?, hlatest]
    rfl
  rw [hstate, h _ _ (g.chain.records_of_state? hstate) hrecords]

/-- If at most one truth value is recorded on a pair, one more fact makes its own the state. -/
theorem OneSided.state?_record (h : g.OneSided fact.pair) :
    (g.record fact).2.state? fact.pair = some fact.truth := by
  have hchain : (g.record fact).2.state? fact.pair = (g.chain.record fact).2.state? fact.pair := rfl
  rcases g.chain.record_eq fact with ⟨hold, hrecord⟩ | ⟨hnew, hrecord⟩
  · rw [hchain, hrecord]
    exact h.state?_eq hold
  · rw [hchain, hrecord, Chain.state?_push, if_pos rfl]

theorem OneSided.record_of_ne (h : g.OneSided pair) (hne : fact.pair ≠ pair) :
    (g.record fact).2.OneSided pair := by
  have hother : ∀ truth, (g.record fact).2.chain.Records ⟨pair, truth⟩ →
      g.chain.Records ⟨pair, truth⟩ := by
    intro truth htruth
    refine ((g.records_record fact _).mp htruth).resolve_right fun heq => ?_
    exact hne (congrArg SignedPair.pair heq).symm
  exact fun a b ha hb => h a b (hother a ha) (hother b hb)

/-- The first fact on a pair is the only one. -/
theorem oneSided_record_of_not_mem (hgrounded : g.Grounded) (hnew : fact.pair ∉ g.pairs) :
    (g.record fact).2.OneSided fact.pair := by
  have hfirst : ∀ truth, (g.record fact).2.chain.Records ⟨fact.pair, truth⟩ →
      truth = fact.truth := by
    intro truth htruth
    rcases (g.records_record fact _).mp htruth with hold | heq
    · obtain ⟨other, hother, hsigned⟩ := List.mem_map.mp hold
      have hpair : other.pair = fact.pair := congrArg SignedPair.pair hsigned
      exact absurd (hpair ▸ hgrounded.facts other hother) hnew
    · exact congrArg SignedPair.truth heq
  exact fun a b ha hb => (hfirst a ha).trans (hfirst b hb).symm

end Steps

section Passes

variable {g : Graph} {pair : Pair}

theorem Grounded.complete (h : g.Grounded) : g.complete.2.Grounded := h.perform .complete

/-- A pass does not change the states of stored pairs. -/
theorem state?_complete (h : pair ∈ g.pairs) : g.complete.2.state? pair = g.state? pair := by
  have hpass := g.complete_induction
    (P := fun now => now.state? pair = g.state? pair ∧ g.pairs ⊆ now.pairs)
    ⟨rfl, List.Subset.refl _⟩ fun start now base dependent _ hnow _ _ => by
      refine ⟨?_, List.Subset.trans hnow.2 (grows_derive ..).pairs.subset⟩
      unfold derive
      split
      · exact hnow.1
      · next fact hsuggestion =>
          have hmissing : fact.pair ∉ now.pairs := by
            obtain ⟨_, _, hmissing, _, _, rfl⟩ := suggestion?_eq_some_iff.mp hsuggestion
            exact hmissing
          rw [state?_record_of_ne fun heq => hmissing (heq ▸ hnow.2 h)]
          exact hnow.1
  exact hpass.1

/-- A pass records no second truth value on a pair. -/
theorem OneSided.complete (hgrounded : g.Grounded) (h : g.OneSided pair) :
    g.complete.2.OneSided pair := by
  have hpass := g.complete_induction (P := fun now => now.Grounded ∧ now.OneSided pair)
    ⟨hgrounded, h⟩ fun start now base dependent _ hnow _ _ => by
      refine ⟨hnow.1.derive _ _ _, ?_⟩
      unfold derive
      split
      · exact hnow.2
      · next fact hsuggestion =>
          -- A suggested pair is new to the graph, so that it has no facts yet.
          by_cases hpair : fact.pair = pair
          · obtain ⟨_, _, hmissing, _, _, rfl⟩ := suggestion?_eq_some_iff.mp hsuggestion
            subst hpair
            exact oneSided_record_of_not_mem hnow.1 hmissing
          · exact hnow.2.record_of_ne hpair
  exact hpass.2

end Passes

section Results

variable {g : Graph} {facts : List Fact} {pair : Pair}

theorem Grounded.restate (h : g.Grounded) (facts : List Fact) : (g.restate facts).Grounded := by
  induction facts generalizing g with
  | nil => exact h
  | cons fact rest ih => exact ih (h.record fact.plain).complete

/-- Facts on other pairs, and the passes after them, record at most one truth value on a pair. -/
theorem OneSided.restate (hgrounded : g.Grounded) (h : g.OneSided pair)
    (hfacts : ∀ fact ∈ facts, fact.pair ≠ pair) : (g.restate facts).OneSided pair := by
  induction facts generalizing g with
  | nil => exact h
  | cons fact rest ih =>
      rw [List.forall_mem_cons] at hfacts
      have hother : fact.plain.pair ≠ pair := hfacts.1
      have hrecord := h.record_of_ne hother
      exact ih (hgrounded.record _).complete (hrecord.complete (hgrounded.record _)) hfacts.2

/-- Facts on other pairs, and the passes after them, leave the state of a stored pair alone. -/
theorem state?_restate_of_ne (h : pair ∈ g.pairs) (hfacts : ∀ fact ∈ facts, fact.pair ≠ pair) :
    (g.restate facts).state? pair = g.state? pair := by
  induction facts generalizing g with
  | nil => rfl
  | cons fact rest ih =>
      rw [List.forall_mem_cons] at hfacts
      have hrecord : pair ∈ (g.record fact.plain).2.pairs := (g.grows_record _).pairs.subset h
      have hother : fact.plain.pair ≠ pair := hfacts.1
      rw [restate_cons, ih ((grows_complete _).pairs.subset hrecord) hfacts.2,
        state?_complete hrecord, state?_record_of_ne hother]

theorem records_restate {fact : Fact} (h : fact ∈ facts) :
    (g.restate facts).chain.Records fact.signed := by
  induction facts generalizing g with
  | nil => exact nomatch h
  | cons first rest ih =>
      rcases List.mem_cons.mp h with rfl | h
      · have hrecords := (g.records_record fact.plain fact.signed).mpr (.inr rfl)
        exact ((grows_complete _).trans (grows_restate _ rest)).records hrecords
      · exact ih h

/-- A pair that occurs in the facts with one truth value ends up in this state: an earlier pass may
have given it the opposite one, but after its own turn nothing changes it. -/
theorem state?_restate {fact : Fact} (hnodup : (facts.map Fact.signed).Nodup) (h : fact ∈ facts)
    (honly : ∀ other ∈ facts, other.pair = fact.pair → other.truth = fact.truth) :
    (empty.restate facts).state? fact.pair = some fact.truth := by
  obtain ⟨before, after, rfl⟩ := List.append_of_mem h
  have hsame : ∀ other ∈ before ++ fact :: after, other.pair = fact.pair →
      other.signed = fact.signed := by
    intro other hother hpair
    rw [Fact.signed, hpair, honly other hother hpair, Fact.signed]
  rw [List.map_append, List.map_cons, List.nodup_middle, List.nodup_cons, List.mem_append,
    not_or] at hnodup
  have hbefore : ∀ other ∈ before, other.pair ≠ fact.pair := fun other hother hpair =>
    hnodup.1.1 (hsame other (by simp [hother]) hpair ▸ List.mem_map_of_mem hother)
  have hafter : ∀ other ∈ after, other.pair ≠ fact.pair := fun other hother hpair =>
    hnodup.1.2 (hsame other (by simp [hother]) hpair ▸ List.mem_map_of_mem hother)
  -- No line before has the pair, so that passes alone may have recorded it, with one truth value.
  have honeSided := (oneSided_empty fact.pair).restate grounded_empty hbefore
  have hstored : fact.pair ∈ ((empty.restate before).record fact.plain).2.pairs := by
    rw [record_pairs, mem_pairs_connect]
    exact .inr rfl
  rw [restate_append, restate_cons,
    state?_restate_of_ne ((grows_complete _).pairs.subset hstored) hafter, state?_complete hstored]
  have hplain : (empty.restate before).OneSided fact.plain.pair := honeSided
  exact hplain.state?_record

theorem records_restate_facts {g : Graph} {signed : SignedPair} (h : g.chain.Records signed) :
    (empty.restate g.facts).chain.Records signed := by
  obtain ⟨fact, hfact, rfl⟩ := List.mem_map.mp h
  exact records_restate hfact

/-- A pair that occurs in a graph with one truth value keeps its state when the facts are stated
again. -/
theorem state?_restate_facts {g : Graph} {truth : Bool} (h : g.chain.Records ⟨pair, truth⟩)
    (honly : ¬ g.chain.Records ⟨pair, !truth⟩) :
    g.state? pair = some truth ∧ (empty.restate g.facts).state? pair = some truth := by
  have htruth : ∀ other, g.chain.Records ⟨pair, other⟩ → other = truth := by
    intro other hother
    by_contra hne
    rw [Bool.eq_not_of_ne hne] at hother
    exact honly hother
  have honeSided : g.OneSided pair := fun a b ha hb => (htruth a ha).trans (htruth b hb).symm
  refine ⟨honeSided.state?_eq h, ?_⟩
  obtain ⟨fact, hfact, hsigned⟩ := List.mem_map.mp h
  obtain ⟨rfl, rfl⟩ := SignedPair.mk.inj hsigned
  refine state?_restate g.signed_nodup hfact fun other hother hpair => htruth other.truth ?_
  rw [← hpair]
  exact List.mem_map_of_mem hother

end Results

end Graph
end RelationLang
