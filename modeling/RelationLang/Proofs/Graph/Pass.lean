import Mathlib.Data.List.Nodup
import RelationLang.Proofs.Graph.Restated

/-!
# What a completion pass derives

A pass changes the graph that it reads. This module describes a pass by the graph at its start.

**Input.**  A graph.

**Algorithm.**  Stored pairs `(x, a)` and `(a, b)` lead to the target `(x, b)`. Of all bases
`(a, b)` that lead to a target, only the earliest one counts. The steps of a pass are the bases and
dependents in the order of the pairs, and each step at which the earliest base of a missing target
is met derives a fact.

**Results.**
* `attemptsWith_eq_filterMap`: what the walk over the dependents of one base attempts is known when
  the walk starts.
* `passAttempts_eq_derivations`: a pass attempts what is derived from the graph at its start.
* `recordAll_of_fresh`: facts on distinct missing pairs of stored names are all accepted.
* `mem_derivations_iff`: which facts are derived.
* `complete_eq_derivations`: a pass appends the derived facts and their pairs, and does nothing
  else.
* `complete_of_start`: all of it, on every reachable graph.
-/

namespace RelationLang
namespace Graph

section Definitions

variable (g : Graph)

/-- A base `(a, b)` leads to the target `(x, b)` if the state of a stored pair `(x, a)` is known. -/
def Leads (target base : Pair) : Prop :=
  base.object = target.object ∧ ⟨target.subject, base.subject⟩ ∈ g.pairs ∧
    (g.state? ⟨target.subject, base.subject⟩).isSome = true

instance (target base : Pair) : Decidable (g.Leads target base) :=
  inferInstanceAs (Decidable (_ ∧ _))

/-- The earliest stored base that leads to a target. -/
def base? (target : Pair) : Option Pair :=
  g.pairs.find? fun base => decide (g.Leads target base)

/-- The fact that a step with a base and a dependent derives, unless an earlier base leads to its
target. -/
def derivation? (base dependent : Pair) : Option Fact :=
  if g.base? ⟨dependent.subject, base.object⟩ = some base then
    g.suggestion? base (g.chain.latest? base) dependent
  else none

/-- The facts derived from some of the bases. -/
def derivationsOver (bases : List Pair) : List Fact :=
  bases.flatMap fun base => g.pairs.filterMap (g.derivation? base)

/-- The facts that are derived from the graph, in the order of the steps. -/
def derivations : List Fact := g.derivationsOver g.pairs

/-- The fact follows from a base `(a, b)` and a dependent `(x, a)`: its pair `(x, b)` is missing,
its truth is the state of the dependent if the base holds, and its negation if the base does not
hold or has no facts; it has the kind of the latest fact of the base, or is an identity if there is
none; and no earlier base leads to it. -/
structure Inferred (base dependent : Pair) (fact : Fact) : Prop where
  base_mem : base ∈ g.pairs
  dependent_mem : dependent ∈ g.pairs
  meet : dependent.object = base.subject
  pair_eq : fact.pair = ⟨dependent.subject, base.object⟩
  not_loop : fact.pair.subject ≠ fact.pair.object
  missing : fact.pair ∉ g.pairs
  truth : ∃ state, g.state? dependent = some state ∧
    fact.truth = if g.state? base = some true then state else !state
  kind : fact.kind = ((g.chain.latest? base).map Fact.kind).getD .identity
  earliest : ∀ other ∈ g.pairs, g.pairs.idxOf other < g.pairs.idxOf base →
    ¬ g.Leads fact.pair other

/-- Steps are in the order of their bases, and those with one base in the order of their
dependents. -/
def StepBefore (base dependent base' dependent' : Pair) : Prop :=
  g.pairs.idxOf base < g.pairs.idxOf base' ∨
    base = base' ∧ g.pairs.idxOf dependent < g.pairs.idxOf dependent'

end Definitions

section Recording

variable {g : Graph}

/-- A fact on a missing pair is accepted. -/
theorem record_of_missing (hg : g.Grounded) {fact : Fact} (hmissing : fact.pair ∉ g.pairs) :
    (g.record fact).1 = true ∧ (g.record fact).2.pairs = g.pairs ++ [fact.pair] ∧
      (g.record fact).2.facts = g.facts ++ [fact] := by
  have hchain : g.chain.record fact = ((g.record fact).1, (g.record fact).2.chain) := rfl
  rcases g.chain.record_eq fact with ⟨hold, _⟩ | ⟨hnew, hrecord⟩
  · obtain ⟨other, hother, hpair, _⟩ := (g.records_iff fact).mp hold
    exact absurd (hpair ▸ hg.facts other hother) hmissing
  · rw [hchain] at hrecord
    obtain ⟨hgrown, hpushed⟩ := Prod.mk.inj hrecord
    refine ⟨hgrown, ?_, congrArg Chain.facts hpushed⟩
    rw [record_pairs, connect_pairs, if_neg hmissing]

/-- A fact on stored names brings no new concepts. -/
theorem record_concepts_of_mem {fact : Fact} (hsubject : fact.pair.subject ∈ g.names)
    (hobject : fact.pair.object ∈ g.names) : (g.record fact).2.concepts = g.concepts := by
  have hnone : g.newNames [fact.pair.subject, fact.pair.object] = [] := by
    simp [newNames, hsubject, hobject]
  have hconcepts := g.addAtoms_concepts [fact.pair.subject, fact.pair.object]
  rw [hnone, List.map_nil, List.append_nil] at hconcepts
  exact hconcepts

/-- Facts on distinct missing pairs of stored names are all accepted, and their pairs are all that
is new. -/
theorem recordAll_of_fresh (hg : g.Grounded) {found : List Fact}
    (hnodup : (found.map Fact.pair).Nodup) (hmissing : ∀ fact ∈ found, fact.pair ∉ g.pairs)
    (hends : ∀ fact ∈ found, fact.pair.subject ∈ g.names ∧ fact.pair.object ∈ g.names) :
    (g.recordAll found).concepts = g.concepts ∧
      (g.recordAll found).pairs = g.pairs ++ found.map Fact.pair ∧
        (g.recordAll found).facts = g.facts ++ found := by
  induction found generalizing g with
  | nil => simp
  | cons fact rest ih =>
      rw [List.map_cons, List.nodup_cons] at hnodup
      rw [List.forall_mem_cons] at hmissing hends
      obtain ⟨_, hpairs, hfacts⟩ := record_of_missing hg hmissing.1
      have hconcepts := record_concepts_of_mem hends.1.1 hends.1.2
      have hnames : (g.record fact).2.names = g.names := congrArg (List.map Concept.name) hconcepts
      have hrest : ∀ other ∈ rest, other.pair ∉ (g.record fact).2.pairs := by
        intro other hother hmem
        rw [hpairs, List.mem_append, List.mem_singleton] at hmem
        rcases hmem with hmem | hpair
        · exact hmissing.2 other hother hmem
        · exact hnodup.1 (hpair ▸ List.mem_map_of_mem hother)
      obtain ⟨hconcepts', hpairs', hfacts'⟩ := ih (hg.record fact) hnodup.2 hrest
        (by rw [hnames]; exact hends.2)
      refine ⟨hconcepts'.trans hconcepts, ?_, ?_⟩
      · rw [recordAll_cons, hpairs', hpairs, List.append_assoc]
        rfl
      · rw [recordAll_cons, hfacts', hfacts, List.append_assoc]
        rfl

theorem latest?_recordAll_of_ne {found : List Fact} {pair : Pair}
    (h : ∀ fact ∈ found, fact.pair ≠ pair) :
    (g.recordAll found).chain.latest? pair = g.chain.latest? pair := by
  induction found generalizing g with
  | nil => rfl
  | cons fact rest ih =>
      rw [List.forall_mem_cons] at h
      have hchain : (g.record fact).2.chain = (g.chain.record fact).2 := rfl
      rw [recordAll_cons, ih h.2, hchain]
      rcases g.chain.record_eq fact with ⟨_, hrecord⟩ | ⟨hnew, hrecord⟩
      · rw [hrecord]
      · rw [hrecord, Chain.latest?_push, if_neg h.1]

theorem state?_recordAll_of_ne {found : List Fact} {pair : Pair}
    (h : ∀ fact ∈ found, fact.pair ≠ pair) : (g.recordAll found).state? pair = g.state? pair :=
  congrArg (Option.map Fact.truth) (latest?_recordAll_of_ne h)

end Recording

section Counting

variable {g : Graph} (hg : g.Grounded)
include hg

/-- The walk over the dependents of a base counts what it attempts. -/
theorem completeWith_fst (base : Pair) (latest : Option Fact) (dependents : List Pair)
    (count : Nat) :
    (completeWith base latest dependents (count, g)).1 =
      count + (attemptsWith base latest dependents g).length := by
  induction dependents generalizing count g with
  | nil => rfl
  | cons dependent rest ih =>
      cases h : g.suggestion? base latest dependent with
      | none => simpa [completeWith, derive, attemptsWith, h] using ih hg count
      | some fact =>
          have hmissing : fact.pair ∉ g.pairs := by
            obtain ⟨_, _, hmissing, _, _, rfl⟩ := suggestion?_eq_some_iff.mp h
            exact hmissing
          have hgrown := (record_of_missing hg hmissing).1
          simp only [completeWith, derive, attemptsWith, h, hgrown, Bool.toNat_true,
            List.length_cons]
          rw [ih (hg.record fact)]
          omega

theorem Grounded.recordAll (facts : List Fact) : (g.recordAll facts).Grounded :=
  recordAll_induction (fun _ fact h => h.record fact) hg facts

theorem completeOver_fst (dependents bases : List Pair) (count : Nat) :
    (completeOver dependents bases (count, g)).1 =
      count + (attemptsOver dependents bases g).length := by
  induction bases generalizing count g with
  | nil => rfl
  | cons base rest ih =>
      have hfst := completeWith_fst hg base (g.chain.latest? base) dependents count
      have hsnd := completeWith_snd base (g.chain.latest? base) dependents count g
      have hwalk : completeWith base (g.chain.latest? base) dependents (count, g) =
          (count + (attemptsWith base (g.chain.latest? base) dependents g).length,
            g.recordAll (attemptsWith base (g.chain.latest? base) dependents g)) :=
        Prod.ext hfst hsnd
      simp only [completeOver, attemptsOver, hwalk, List.length_append]
      rw [ih (hg.recordAll _)]
      omega

/-- A pass counts what it attempts: all of it is accepted. -/
theorem complete_fst : g.complete.1 = g.passAttempts.length := by
  rw [complete, completeOver_fst hg, passAttempts]
  omega

end Counting

section Steps

variable {g : Graph}

/-- Another fact matters to a step only if it is about the dependent or about the target. -/
theorem suggestion?_record {base dependent : Pair} {latest : Option Fact} {fact : Fact}
    (hdependent : fact.pair ≠ dependent)
    (htarget : dependent.object = base.subject → fact.pair ≠ ⟨dependent.subject, base.object⟩) :
    (g.record fact).2.suggestion? base latest dependent = g.suggestion? base latest dependent := by
  apply Option.ext
  intro suggested
  rw [suggestion?_eq_some_iff, suggestion?_eq_some_iff, state?_record_of_ne hdependent,
    record_pairs, mem_pairs_connect, not_or]
  constructor
  · rintro ⟨hmeet, hloop, ⟨hmissing, _⟩, hstate⟩
    exact ⟨hmeet, hloop, hmissing, hstate⟩
  · rintro ⟨hmeet, hloop, hmissing, hstate⟩
    exact ⟨hmeet, hloop, ⟨hmissing, (htarget hmeet).symm⟩, hstate⟩

/-- What the walk over the dependents of one base attempts is known when the walk starts: the
dependents have different targets. -/
theorem attemptsWith_eq_filterMap (base : Pair) (latest : Option Fact) {dependents : List Pair}
    (hsub : dependents ⊆ g.pairs) (hnodup : dependents.Nodup) :
    attemptsWith base latest dependents g =
      dependents.filterMap (g.suggestion? base latest) := by
  induction dependents generalizing g with
  | nil => rfl
  | cons dependent rest ih =>
      obtain ⟨_, hsub⟩ := List.cons_subset.mp hsub
      obtain ⟨hnew, hnodup⟩ := List.nodup_cons.mp hnodup
      cases h : g.suggestion? base latest dependent with
      | none => simpa [attemptsWith, h] using ih hsub hnodup
      | some fact =>
          obtain ⟨hmeet, _, hmissing, _, _, hfact⟩ := suggestion?_eq_some_iff.mp h
          have hpair := suggestion?_pair h
          rw [← hpair] at hmissing
          have hsame : ∀ other ∈ rest, (g.record fact).2.suggestion? base latest other =
              g.suggestion? base latest other := by
            intro other hother
            refine suggestion?_record (fun heq => hmissing (heq ▸ hsub hother)) fun hmeet' heq => ?_
            rw [hpair, Pair.mk.injEq] at heq
            have : dependent = other := by
              cases dependent
              cases other
              simp_all
            exact hnew (this ▸ hother)
          have hrest : rest ⊆ (g.record fact).2.pairs :=
            List.Subset.trans hsub (g.grows_record fact).pairs.subset
          simp only [attemptsWith, h, List.filterMap_cons, ih hrest hnodup,
            List.filterMap_congr hsame]

/-- The earliest base of a target is stored, and leads to it. -/
theorem mem_of_base? {target base : Pair} (h : g.base? target = some base) :
    base ∈ g.pairs ∧ g.Leads target base :=
  ⟨List.mem_of_find?_eq_some h, by simpa using List.find?_some h⟩

/-- If one of the bases leads to a target, the earliest one is the first that does. -/
theorem base?_eq_some_iff_of_split {target base : Pair} {before after : List Pair}
    (hsplit : g.pairs = before ++ base :: after) (hleads : g.Leads target base) :
    g.base? target = some base ↔ ∀ other ∈ before, g.base? target ≠ some other := by
  have hnodup := g.pairs_nodup
  rw [hsplit, List.nodup_middle, List.nodup_cons, List.mem_append, not_or] at hnodup
  constructor
  · intro hbase other hother heq
    rw [hbase] at heq
    exact hnodup.1.1 (Option.some.inj heq ▸ hother)
  · intro hbefore
    cases hfirst : before.find? fun base => decide (g.Leads target base) with
    | none => simp [base?, hsplit, List.find?_append, hfirst, hleads]
    | some first =>
        refine absurd ?_ (hbefore first (List.mem_of_find?_eq_some hfirst))
        simp [base?, hsplit, List.find?_append, hfirst]

/-- The targets of some of the bases are the missing pairs, other than loops, for which one of
these is the earliest base. -/
theorem exists_mem_derivationsOver_iff {bases : List Pair} {target : Pair} :
    (∃ fact ∈ g.derivationsOver bases, fact.pair = target) ↔
      target.subject ≠ target.object ∧ target ∉ g.pairs ∧
        ∃ base ∈ bases, g.base? target = some base := by
  constructor
  · rintro ⟨fact, hfact, rfl⟩
    obtain ⟨base, hbase, hfact⟩ := List.mem_flatMap.mp hfact
    obtain ⟨dependent, _, hfact⟩ := List.mem_filterMap.mp hfact
    obtain ⟨hearliest, hsuggestion⟩ := Option.ite_none_right_eq_some.mp hfact
    obtain ⟨_, hloop, hmissing, _⟩ := suggestion?_eq_some_iff.mp hsuggestion
    rw [suggestion?_pair hsuggestion]
    exact ⟨hloop, hmissing, base, hbase, hearliest⟩
  · rintro ⟨hloop, hmissing, base, hbase, hearliest⟩
    obtain ⟨_, hobject, hstored, hstate⟩ := mem_of_base? hearliest
    obtain ⟨state, hstate⟩ := Option.isSome_iff_exists.mp hstate
    have htarget : (⟨target.subject, base.object⟩ : Pair) = target := by rw [hobject]
    refine ⟨⟨target, inheritedTruth (g.chain.latest? base) state,
      inheritedKind (g.chain.latest? base)⟩, ?_, rfl⟩
    refine List.mem_flatMap.mpr ⟨base, hbase, List.mem_filterMap.mpr
      ⟨⟨target.subject, base.subject⟩, hstored, ?_⟩⟩
    rw [derivation?, if_pos (by rw [htarget]; exact hearliest), suggestion?_eq_some_iff, htarget]
    exact ⟨rfl, hobject ▸ hloop, hmissing, state, hstate, rfl⟩

theorem pair_ne_of_mem_derivationsOver {bases : List Pair} {fact : Fact} {pair : Pair}
    (hfact : fact ∈ g.derivationsOver bases) (hpair : pair ∈ g.pairs) : fact.pair ≠ pair := by
  rintro rfl
  exact (exists_mem_derivationsOver_iff.mp ⟨fact, hfact, rfl⟩).2.1 hpair

/-- When the turn of a base comes, the rule suggests what is derived from the graph at the start. -/
theorem suggestion?_recordAll {before after : List Pair} {base dependent : Pair}
    (hsplit : g.pairs = before ++ base :: after) (hdependent : dependent ∈ g.pairs) :
    (g.recordAll (g.derivationsOver before)).suggestion? base (g.chain.latest? base) dependent =
      g.derivation? base dependent := by
  apply Option.ext
  intro suggested
  rw [derivation?, Option.ite_none_right_eq_some, suggestion?_eq_some_iff,
    suggestion?_eq_some_iff,
    state?_recordAll_of_ne fun _ hfact => pair_ne_of_mem_derivationsOver hfact hdependent,
    mem_pairs_recordAll, exists_mem_derivationsOver_iff, not_or]
  constructor
  · rintro ⟨hmeet, hloop, ⟨hmissing, hnone⟩, state, hstate, hfact⟩
    have hleads : g.Leads ⟨dependent.subject, base.object⟩ base :=
      ⟨rfl, by rw [← hmeet]; exact hdependent, by rw [← hmeet]; simp [hstate]⟩
    refine ⟨(base?_eq_some_iff_of_split hsplit hleads).mpr fun other hbefore heq => ?_,
      hmeet, hloop, hmissing, state, hstate, hfact⟩
    exact hnone ⟨hloop, hmissing, other, hbefore, heq⟩
  · rintro ⟨hearliest, hmeet, hloop, hmissing, state, hstate, hfact⟩
    have hleads := (mem_of_base? hearliest).2
    refine ⟨hmeet, hloop, ⟨hmissing, ?_⟩, state, hstate, hfact⟩
    rintro ⟨_, _, other, hbefore, heq⟩
    exact (base?_eq_some_iff_of_split hsplit hleads).mp hearliest other hbefore heq

/-- The walk over the bases that remain, when those before them have had their turns. -/
theorem attemptsOver_eq_derivationsOver {before bases : List Pair}
    (hsplit : g.pairs = before ++ bases) :
    attemptsOver g.pairs bases (g.recordAll (g.derivationsOver before)) =
      g.derivationsOver bases := by
  induction bases generalizing before with
  | nil => rfl
  | cons base rest ih =>
      have hbase : base ∈ g.pairs := by rw [hsplit]; simp
      have hlatest : (g.recordAll (g.derivationsOver before)).chain.latest? base =
          g.chain.latest? base :=
        latest?_recordAll_of_ne fun _ hfact => pair_ne_of_mem_derivationsOver hfact hbase
      have hhere : attemptsWith base (g.chain.latest? base) g.pairs
          (g.recordAll (g.derivationsOver before)) = g.pairs.filterMap (g.derivation? base) := by
        rw [attemptsWith_eq_filterMap base _ (grows_recordAll _ _).pairs.subset g.pairs_nodup]
        exact List.filterMap_congr fun dependent hdependent =>
          suggestion?_recordAll hsplit hdependent
      have hnext : (g.recordAll (g.derivationsOver before)).recordAll
          (g.pairs.filterMap (g.derivation? base)) =
            g.recordAll (g.derivationsOver (before ++ [base])) := by
        simp [← recordAll_append, derivationsOver]
      simp only [attemptsOver, hlatest, hhere, hnext]
      rw [ih (by simp [hsplit])]
      rfl

/-- A pass attempts what is derived from the graph at its start. -/
theorem passAttempts_eq_derivations (g : Graph) : g.passAttempts = g.derivations :=
  attemptsOver_eq_derivationsOver (show g.pairs = [] ++ g.pairs from rfl)

end Steps

section Derivations

variable {g : Graph} {base dependent base' dependent' : Pair} {fact fact' : Fact}

theorem idxOf_getElem_pairs {i : Nat} (hi : i < g.pairs.length) : g.pairs.idxOf g.pairs[i] = i :=
  g.pairs_nodup.idxOf_getElem i hi

/-- The earliest base of a target leads to it, and no base before it does. -/
theorem base?_eq_some_iff {target : Pair} :
    g.base? target = some base ↔ base ∈ g.pairs ∧ g.Leads target base ∧
      ∀ other ∈ g.pairs, g.pairs.idxOf other < g.pairs.idxOf base → ¬ g.Leads target other := by
  rw [base?, List.find?_eq_some_iff_getElem]
  constructor
  · rintro ⟨hleads, i, hi, rfl, hbefore⟩
    refine ⟨List.getElem_mem hi, by simpa using hleads, fun other hother hlt => ?_⟩
    obtain ⟨j, hj, rfl⟩ := List.mem_iff_getElem.mp hother
    rw [idxOf_getElem_pairs hi, idxOf_getElem_pairs hj] at hlt
    simpa using hbefore j hlt
  · rintro ⟨hmem, hleads, hbefore⟩
    obtain ⟨i, hi, rfl⟩ := List.mem_iff_getElem.mp hmem
    refine ⟨by simpa using hleads, i, hi, rfl, fun j hj => ?_⟩
    have hlt : g.pairs.idxOf g.pairs[j] < g.pairs.idxOf g.pairs[i] := by
      rwa [idxOf_getElem_pairs hi, idxOf_getElem_pairs (by omega)]
    simpa using hbefore _ (List.getElem_mem _) hlt

/-- A step derives a fact exactly when the fact follows from its base and its dependent. -/
theorem inferred_iff : g.Inferred base dependent fact ↔
    base ∈ g.pairs ∧ dependent ∈ g.pairs ∧ g.derivation? base dependent = some fact := by
  rw [derivation?, Option.ite_none_right_eq_some, base?_eq_some_iff, suggestion?_eq_some_iff]
  constructor
  · intro h
    obtain ⟨state, hstate, htruth⟩ := h.truth
    have hpair := h.pair_eq
    have hloop := h.not_loop
    have hmissing := h.missing
    have hearliest := h.earliest
    rw [hpair] at hloop hmissing hearliest
    refine ⟨h.base_mem, h.dependent_mem, ⟨h.base_mem, ⟨rfl, ?_, ?_⟩, hearliest⟩, h.meet, hloop,
      hmissing, state, hstate, ?_⟩
    · rw [← h.meet]
      exact h.dependent_mem
    · rw [← h.meet, hstate]
      rfl
    · obtain ⟨pair, truth, kind⟩ := fact
      exact (Fact.mk.injEq ..).mpr ⟨hpair.symm, htruth.symm, h.kind.symm⟩
  · rintro ⟨hbase, hdependent, ⟨_, _, hearliest⟩, hmeet, hloop, hmissing, state, hstate, rfl⟩
    exact
      { base_mem := hbase
        dependent_mem := hdependent
        meet := hmeet
        pair_eq := rfl
        not_loop := hloop
        missing := hmissing
        truth := ⟨state, hstate, rfl⟩
        kind := rfl
        earliest := hearliest }

/-- The derived facts are those that follow from some base and some dependent. -/
theorem mem_derivations_iff :
    fact ∈ g.derivations ↔ ∃ base dependent, g.Inferred base dependent fact := by
  simp only [derivations, derivationsOver, List.mem_flatMap, List.mem_filterMap, inferred_iff]
  constructor
  · rintro ⟨base, hbase, dependent, hdependent, hfact⟩
    exact ⟨base, dependent, hbase, hdependent, hfact⟩
  · rintro ⟨base, dependent, hbase, hdependent, hfact⟩
    exact ⟨base, hbase, dependent, hdependent, hfact⟩

/-- The pair of a derived fact determines the step at which it is derived. -/
theorem Inferred.unique (h : g.Inferred base dependent fact)
    (h' : g.Inferred base' dependent' fact') (hpair : fact.pair = fact'.pair) :
    base = base' ∧ dependent = dependent' := by
  have hbase : base = base' := by
    have hearliest := (Option.ite_none_right_eq_some.mp (inferred_iff.mp h).2.2).1
    have hearliest' := (Option.ite_none_right_eq_some.mp (inferred_iff.mp h').2.2).1
    rw [← h.pair_eq, hpair, h'.pair_eq, hearliest'] at hearliest
    exact (Option.some.inj hearliest).symm
  refine ⟨hbase, ?_⟩
  have hends := h.pair_eq.symm.trans (hpair.trans h'.pair_eq)
  have hmeet := h.meet
  have hmeet' := h'.meet
  cases dependent
  cases dependent'
  simp_all

/-- The facts are derived in the order of the steps. -/
theorem derivations_pairwise : g.derivations.Pairwise fun fact fact' =>
    ∃ base dependent base' dependent', g.Inferred base dependent fact ∧
      g.Inferred base' dependent' fact' ∧ g.StepBefore base dependent base' dependent' := by
  have hordered : g.pairs.Pairwise fun pair pair' =>
      g.pairs.idxOf pair < g.pairs.idxOf pair' := by
    rw [List.pairwise_iff_getElem]
    intro i j hi hj hij
    rwa [idxOf_getElem_pairs hi, idxOf_getElem_pairs hj]
  rw [derivations, derivationsOver, List.pairwise_flatMap]
  constructor
  · intro base hbase
    rw [List.pairwise_filterMap]
    refine hordered.imp_of_mem fun hdependent hdependent' hlt fact hfact fact' hfact' => ?_
    exact ⟨_, _, _, _, inferred_iff.mpr ⟨hbase, hdependent, hfact⟩,
      inferred_iff.mpr ⟨hbase, hdependent', hfact'⟩, .inr ⟨rfl, hlt⟩⟩
  · refine hordered.imp_of_mem fun hbase hbase' hlt fact hfact fact' hfact' => ?_
    obtain ⟨dependent, hdependent, hfact⟩ := List.mem_filterMap.mp hfact
    obtain ⟨dependent', hdependent', hfact'⟩ := List.mem_filterMap.mp hfact'
    exact ⟨_, _, _, _, inferred_iff.mpr ⟨hbase, hdependent, hfact⟩,
      inferred_iff.mpr ⟨hbase', hdependent', hfact'⟩, .inl hlt⟩

/-- No pair is derived twice. -/
theorem derivations_nodup : (g.derivations.map Fact.pair).Nodup := by
  rw [List.nodup_iff_pairwise_ne, List.pairwise_map]
  refine derivations_pairwise.imp ?_
  rintro fact fact' ⟨base, dependent, base', dependent', h, h', hbefore⟩ hpair
  obtain ⟨rfl, rfl⟩ := h.unique h' hpair
  rcases hbefore with hlt | ⟨_, hlt⟩
  · exact Nat.lt_irrefl _ hlt
  · exact Nat.lt_irrefl _ hlt

/-- The targets derived are the missing pairs `(x, b)`, other than loops, for which there are stored
pairs `(x, a)`, with a known state, and `(a, b)`. -/
theorem exists_mem_derivations_iff {target : Pair} :
    (∃ fact ∈ g.derivations, fact.pair = target) ↔
      target.subject ≠ target.object ∧ target ∉ g.pairs ∧
        ∃ middle, ⟨middle, target.object⟩ ∈ g.pairs ∧ ⟨target.subject, middle⟩ ∈ g.pairs ∧
          (g.state? ⟨target.subject, middle⟩).isSome = true := by
  rw [derivations, exists_mem_derivationsOver_iff]
  refine and_congr_right fun _ => and_congr_right fun _ => ?_
  constructor
  · rintro ⟨base, hbase, hearliest⟩
    obtain ⟨_, hobject, hstored, hstate⟩ := mem_of_base? hearliest
    exact ⟨base.subject, by rw [← hobject]; exact hbase, hstored, hstate⟩
  · rintro ⟨middle, hbase, hstored, hstate⟩
    have hsome : (g.base? target).isSome = true := by
      rw [base?, List.find?_isSome]
      exact ⟨_, hbase, by simpa [Leads] using ⟨hstored, hstate⟩⟩
    obtain ⟨base, hearliest⟩ := Option.isSome_iff_exists.mp hsome
    exact ⟨base, (mem_of_base? hearliest).1, hearliest⟩

/-- A pass appends the derived facts and their pairs, and nothing else. -/
theorem complete_eq_derivations (hg : g.Grounded) :
    g.complete.1 = g.derivations.length ∧ g.complete.2.concepts = g.concepts ∧
      g.complete.2.pairs = g.pairs ++ g.derivations.map Fact.pair ∧
        g.complete.2.facts = g.facts ++ g.derivations := by
  refine ⟨by rw [complete_fst hg, passAttempts_eq_derivations], ?_⟩
  rw [complete_snd, passAttempts_eq_derivations]
  refine recordAll_of_fresh hg derivations_nodup ?_ ?_
  · intro fact hfact
    obtain ⟨_, _, h⟩ := mem_derivations_iff.mp hfact
    exact h.missing
  · intro fact hfact
    obtain ⟨_, _, h⟩ := mem_derivations_iff.mp hfact
    rw [h.pair_eq]
    exact ⟨(hg.ends _ h.dependent_mem).1, (hg.ends _ h.base_mem).2⟩

/-- A pass over a graph that operations have made is a function of the graph at its start, although
it reads what it writes. It derives the facts that follow from a base and a dependent, one for each
missing pair that is reached from a known state, in the order of the steps; it appends these facts
and their pairs, and answers how many they are; and it leaves concepts and the states of all stored
pairs alone. -/
theorem complete_of_start (hg : g.Reachable) :
    (∀ fact, fact ∈ g.derivations ↔ ∃ base dependent, g.Inferred base dependent fact) ∧
    (∀ target : Pair, (∃ fact ∈ g.derivations, fact.pair = target) ↔
      target.subject ≠ target.object ∧ target ∉ g.pairs ∧
        ∃ middle, ⟨middle, target.object⟩ ∈ g.pairs ∧ ⟨target.subject, middle⟩ ∈ g.pairs ∧
          (g.state? ⟨target.subject, middle⟩).isSome = true) ∧
    (g.derivations.map Fact.pair).Nodup ∧
    (g.derivations.Pairwise fun fact fact' =>
      ∃ base dependent base' dependent', g.Inferred base dependent fact ∧
        g.Inferred base' dependent' fact' ∧ g.StepBefore base dependent base' dependent') ∧
    g.complete.1 = g.derivations.length ∧
    g.complete.2.concepts = g.concepts ∧
    g.complete.2.pairs = g.pairs ++ g.derivations.map Fact.pair ∧
    g.complete.2.facts = g.facts ++ g.derivations ∧
    ∀ pair ∈ g.pairs, g.complete.2.state? pair = g.state? pair := by
  obtain ⟨hcount, hconcepts, hpairs, hfacts⟩ := complete_eq_derivations hg.consistent.toGrounded
  exact ⟨fun _ => mem_derivations_iff, fun _ => exists_mem_derivations_iff, derivations_nodup,
    derivations_pairwise, hcount, hconcepts, hpairs, hfacts, fun _ => state?_complete⟩

/-- Two bases lead to one target. The earlier one has no facts and counts as one that does not hold,
so that the later one, which holds, is passed over. -/
theorem factless_base_comes_first :
    ∃ g : Graph, g.Reachable ∧ g.pairs = [⟨"a", "b"⟩, ⟨"x", "a"⟩, ⟨"c", "b"⟩, ⟨"x", "c"⟩] ∧
      g.state? ⟨"a", "b"⟩ = none ∧ g.state? ⟨"c", "b"⟩ = some true ∧
      (⟨⟨"x", "b"⟩, false, .identity⟩ : Fact) ∈ g.derivations ∧
      g.complete.1 = g.derivations.length ∧
      g.complete.2.pairs = g.pairs ++ g.derivations.map Fact.pair ∧
      g.complete.2.facts = g.facts ++ g.derivations ∧
      ∀ pair ∈ g.pairs, g.complete.2.state? pair = g.state? pair := by
  have hreachable : (empty.performAll [.connect ⟨"a", "b"⟩, .record ⟨⟨"x", "a"⟩, true, .property⟩,
      .record ⟨⟨"c", "b"⟩, true, .property⟩, .record ⟨⟨"x", "c"⟩, true, .identity⟩]).Reachable :=
    ⟨_, rfl⟩
  obtain ⟨_, _, _, _, hcount, _, hpairs, hfacts, hstates⟩ := complete_of_start hreachable
  exact ⟨_, hreachable, by decide, by decide, by decide, by decide, hcount, hpairs, hfacts, hstates⟩

end Derivations

end Graph
end RelationLang
