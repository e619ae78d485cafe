import Mathlib.Data.List.Induction
import RelationLang.Proofs.Graph.Effect
import RelationLang.Proofs.Graph.Operation

/-!
# Growth of graphs

Unless it is told to forget, a graph only grows, and the state of a pair is settled by the facts
that were attempted on it, whether by callers or by completion passes.

**Results.**
* `grows_performAll`: the lists before operations are prefixes of the lists after them.
* `Chain.record_fst_iff`: a fact is accepted exactly when it changes the state of its pair.
* `performAll_chain`: the chain holds what recording all attempts in order would give.
* `state?_performAll`: the state of a pair as a function of the attempts on it.
* `states_settled_by_attempts`: the three laws together.
-/

namespace RelationLang

section Chains

namespace Chain

variable (chain : Chain)

/-- The chain after recording facts in order. -/
def recordAll (facts : List Fact) : Chain :=
  facts.foldl (fun chain fact => (chain.record fact).2) chain

theorem recordAll_append (before after : List Fact) :
    chain.recordAll (before ++ after) = (chain.recordAll before).recordAll after :=
  List.foldl_append

/-- The latest fact of a pair is a fact on the pair. -/
theorem mem_of_latest? {pair : Pair} {fact : Fact} (h : chain.latest? pair = some fact) :
    fact ∈ chain.facts ∧ fact.pair = pair := by
  rw [latest?_eq_findRev?, List.findRev?_eq_find?_reverse] at h
  exact ⟨by simpa using List.mem_of_find?_eq_some h, by simpa using List.find?_some h⟩

/-- A pair has a latest fact exactly when it has facts. -/
theorem latest?_isSome_iff {pair : Pair} :
    (chain.latest? pair).isSome = true ↔ ∃ fact ∈ chain.facts, fact.pair = pair := by
  rw [latest?_eq_findRev?, List.findRev?_eq_find?_reverse, List.find?_isSome]
  simp

/-- The state of a pair is recorded. -/
theorem records_of_state? {pair : Pair} {truth : Bool} (h : chain.state? pair = some truth) :
    chain.Records ⟨pair, truth⟩ := by
  obtain ⟨fact, hlatest, rfl⟩ := Option.map_eq_some_iff.mp h
  obtain ⟨hmem, rfl⟩ := chain.mem_of_latest? hlatest
  exact List.mem_map_of_mem hmem

/-- The newest fact gives its pair its truth, and no other pair a new state. -/
theorem state?_push (fact : Fact) (h : ¬ chain.Records fact.signed) (pair : Pair) :
    (chain.push fact h).state? pair =
      if fact.pair = pair then some fact.truth else chain.state? pair := by
  unfold state?
  rw [latest?_push]
  split <;> rfl

/-- A fact is accepted exactly when it changes the state of its pair. -/
theorem record_fst_iff (fact : Fact) :
    (chain.record fact).1 = true ↔
      (chain.record fact).2.state? fact.pair ≠ chain.state? fact.pair := by
  rcases chain.record_eq fact with ⟨_, hrecord⟩ | ⟨hnew, hrecord⟩
  · simp [hrecord]
  · rw [hrecord]
    simp only [true_iff, state?_push, if_true]
    intro hstate
    exact hnew (chain.records_of_state? hstate.symm)

/-- What is recorded after one more attempt. -/
theorem records_record (fact : Fact) (signed : SignedPair) :
    (chain.record fact).2.Records signed ↔ chain.Records signed ∨ signed = fact.signed := by
  rcases chain.record_eq fact with ⟨hold, hrecord⟩ | ⟨hnew, hrecord⟩
  · rw [hrecord]
    constructor
    · exact .inl
    · rintro (h | rfl)
      · exact h
      · exact hold
  · rw [hrecord]
    simp [Records]

end Chain

end Chains

section Settling

/-- The state of a pair on which facts with these truth values are attempted, first one first: the
first truth value, until the other one occurs. -/
def settled : List Bool → Option Bool
  | [] => none
  | first :: rest => some (if ∀ truth ∈ rest, truth = first then first else !first)

/-- The truth values attempted on a pair, in order. -/
def truthsOn (pair : Pair) (tries : List Fact) : List Bool :=
  (tries.filter fun fact => fact.pair = pair).map Fact.truth

theorem truthsOn_append (pair : Pair) (before after : List Fact) :
    truthsOn pair (before ++ after) = truthsOn pair before ++ truthsOn pair after := by
  simp [truthsOn]

/-- A truth value that was attempted before changes nothing. -/
theorem settled_concat_of_mem {truths : List Bool} {truth : Bool} (h : truth ∈ truths) :
    settled (truths ++ [truth]) = settled truths := by
  cases truths with
  | nil => exact nomatch h
  | cons first rest =>
      have hall : (∀ t ∈ rest ++ [truth], t = first) ↔ ∀ t ∈ rest, t = first := by
        constructor
        · exact fun hall t ht => hall t (by simp [ht])
        · intro hall t ht
          rcases List.mem_append.mp ht with ht | ht
          · exact hall t ht
          · rcases List.mem_cons.mp h with rfl | hrest
            · simpa using ht
            · exact (List.mem_singleton.mp ht) ▸ hall truth hrest
      simp only [List.cons_append, settled, hall]

/-- A truth value that was not attempted before becomes the state. -/
theorem settled_concat_of_not_mem {truths : List Bool} {truth : Bool} (h : truth ∉ truths) :
    settled (truths ++ [truth]) = some truth := by
  cases truths with
  | nil => simp [settled]
  | cons first rest =>
      have hne : truth ≠ first := fun heq => h (by simp [heq])
      have hall : ¬ ∀ t ∈ rest ++ [truth], t = first := fun hall => hne (hall truth (by simp))
      simp only [List.cons_append, settled, if_neg hall]
      cases truth <;> cases first <;> simp_all

/-- Recording facts from nothing records what was attempted, and settles each pair by the attempts
on it. -/
theorem settled_recordAll (tries : List Fact) (pair : Pair) :
    (∀ truth, (Chain.empty.recordAll tries).Records ⟨pair, truth⟩ ↔ truth ∈ truthsOn pair tries) ∧
      (Chain.empty.recordAll tries).state? pair = settled (truthsOn pair tries) := by
  induction tries using List.reverseRecOn with
  | nil => exact ⟨by simp [Chain.recordAll, Chain.Records, truthsOn], rfl⟩
  | append_singleton tries fact ih =>
      obtain ⟨hrecords, hstate⟩ := ih
      rw [Chain.recordAll_append, truthsOn_append]
      simp only [Chain.recordAll, List.foldl_cons, List.foldl_nil] at hrecords hstate ⊢
      generalize tries.foldl (fun chain fact => (chain.record fact).2) Chain.empty = chain
        at hrecords hstate ⊢
      by_cases hpair : fact.pair = pair
      · subst hpair
        have hon : truthsOn fact.pair [fact] = [fact.truth] := by simp [truthsOn]
        rw [hon]
        refine ⟨fun truth => ?_, ?_⟩
        · rw [Chain.records_record, hrecords, List.mem_append]
          simp [Fact.signed]
        · rcases chain.record_eq fact with ⟨hold, hrecord⟩ | ⟨hnew, hrecord⟩
          · rw [hrecord, hstate, settled_concat_of_mem ((hrecords _).mp hold)]
          · rw [hrecord, Chain.state?_push, if_pos rfl,
              settled_concat_of_not_mem fun hmem => hnew ((hrecords _).mpr hmem)]
      · have hon : truthsOn pair [fact] = [] := by simp [truthsOn, hpair]
        rw [hon, List.append_nil]
        refine ⟨fun truth => ?_, ?_⟩
        · rw [Chain.records_record, hrecords]
          simp [Fact.signed, Ne.symm hpair]
        · rcases chain.record_eq fact with ⟨_, hrecord⟩ | ⟨hnew, hrecord⟩
          · rw [hrecord, hstate]
          · rw [hrecord, Chain.state?_push, if_neg hpair, hstate]

end Settling

namespace Graph

/-- Each list of one graph is a prefix of the list of the other. -/
structure Grows (g h : Graph) : Prop where
  concepts : g.concepts <+: h.concepts
  pairs : g.pairs <+: h.pairs
  facts : g.facts <+: h.facts

section Prefixes

variable {g h k : Graph}

theorem Grows.refl (g : Graph) : g.Grows g :=
  ⟨List.prefix_refl _, List.prefix_refl _, List.prefix_refl _⟩

theorem Grows.trans (hgh : g.Grows h) (hhk : h.Grows k) : g.Grows k :=
  ⟨hgh.concepts.trans hhk.concepts, hgh.pairs.trans hhk.pairs, hgh.facts.trans hhk.facts⟩

theorem grows_insert (g : Graph) (concept : Concept) : g.Grows (g.insert concept) where
  concepts := by
    rw [insert_concepts]
    split
    · exact List.prefix_refl _
    · exact List.prefix_append _ _
  pairs := List.prefix_refl _
  facts := List.prefix_refl _

theorem grows_connect (g : Graph) (pair : Pair) : g.Grows (g.connect pair) where
  concepts := ((g.grows_insert (.atom pair.subject)).trans (grows_insert _ _)).concepts
  pairs := by
    rw [connect_pairs]
    split
    · exact List.prefix_refl _
    · exact List.prefix_append _ _
  facts := List.prefix_refl _

theorem grows_record (g : Graph) (fact : Fact) : g.Grows (g.record fact).2 where
  concepts := (g.grows_connect fact.pair).concepts
  pairs := (g.grows_connect fact.pair).pairs
  facts := by
    rw [record_facts]
    split
    · exact List.prefix_refl _
    · exact List.prefix_append _ _

theorem grows_recordAll (g : Graph) (facts : List Fact) : g.Grows (g.recordAll facts) := by
  induction facts generalizing g with
  | nil => exact .refl g
  | cons fact rest ih => exact (g.grows_record fact).trans (ih _)

theorem grows_derive (g : Graph) (base : Pair) (latest : Option Fact) (dependent : Pair) :
    g.Grows (g.derive base latest dependent).2 := by
  unfold derive
  split
  · exact .refl g
  · exact g.grows_record _

theorem grows_complete (g : Graph) : g.Grows g.complete.2 := by
  rw [complete_snd]
  exact g.grows_recordAll _

/-- Every operation but forgetting extends the lists. -/
theorem grows_perform (g : Graph) {op : Operation} (hop : op ≠ .clear) :
    g.Grows (g.perform op) := by
  cases op with
  | addAtom name => exact g.grows_insert _
  | addBox name content => exact g.grows_insert _
  | connect pair => exact g.grows_connect pair
  | record fact => exact g.grows_record fact
  | complete => exact g.grows_complete
  | clear => exact absurd rfl hop

/-- The lists before operations are prefixes of the lists after them. -/
theorem grows_performAll (g : Graph) {ops : List Operation} (hops : .clear ∉ ops) :
    g.Grows (g.performAll ops) := by
  induction ops generalizing g with
  | nil => exact .refl g
  | cons op rest ih =>
      obtain ⟨hop, hrest⟩ := not_or.mp (mt List.mem_cons.mpr hops)
      exact (g.grows_perform (Ne.symm hop)).trans (ih _ hrest)

/-- A stored concept keeps its shape. -/
theorem Grows.concept? (hgh : g.Grows h) {name : String} {concept : Concept}
    (hconcept : g.concept? name = some concept) : h.concept? name = some concept := by
  obtain ⟨hmem, hname⟩ := g.conceptStore.find?_eq_some_iff.mp hconcept
  exact h.conceptStore.find?_eq_some_iff.mpr ⟨hgh.concepts.subset hmem, hname⟩

end Prefixes

section States

theorem recordAll_chain (g : Graph) (facts : List Fact) :
    (g.recordAll facts).chain = g.chain.recordAll facts := by
  induction facts generalizing g with
  | nil => rfl
  | cons fact rest ih => exact ih (g.record fact).2

theorem perform_chain (g : Graph) {op : Operation} (hop : op ≠ .clear) :
    (g.perform op).chain = g.chain.recordAll (g.attempts op) := by
  cases op with
  | addAtom name => rfl
  | addBox name content => rfl
  | connect pair => rfl
  | record fact => rfl
  | complete =>
      rw [perform, complete_snd]
      exact g.recordAll_chain _
  | clear => exact absurd rfl hop

/-- Without forgetting, the chain holds what recording all attempts in order would give. -/
theorem performAll_chain (g : Graph) {ops : List Operation} (hops : .clear ∉ ops) :
    (g.performAll ops).chain = g.chain.recordAll (g.attemptsAll ops) := by
  induction ops generalizing g with
  | nil => rfl
  | cons op rest ih =>
      obtain ⟨hop, hrest⟩ := not_or.mp (mt List.mem_cons.mpr hops)
      rw [performAll_cons, ih _ hrest, perform_chain g (Ne.symm hop), attemptsAll,
        Chain.recordAll_append]

/-- The state of a pair as a function of the attempts on it. -/
theorem state?_performAll {ops : List Operation} (hops : .clear ∉ ops) (pair : Pair) :
    (empty.performAll ops).state? pair = settled (truthsOn pair (empty.attemptsAll ops)) := by
  rw [state?, performAll_chain empty hops]
  exact (settled_recordAll _ pair).2

theorem attemptsAll_append (g : Graph) (before after : List Operation) :
    g.attemptsAll (before ++ after) =
      g.attemptsAll before ++ (g.performAll before).attemptsAll after := by
  induction before generalizing g with
  | nil => rfl
  | cons op rest ih => simp [attemptsAll, ih, List.append_assoc]

/-- No attempt on a pair is left out, and none is made up. -/
theorem truthsOn_eq_nil_iff {pair : Pair} {tries : List Fact} :
    truthsOn pair tries = [] ↔ ∀ fact ∈ tries, fact.pair ≠ pair := by
  simp [truthsOn]

theorem settled_of_agree {truths : List Bool} {first : Bool} (hfirst : truths.head? = some first)
    (hagree : ∀ truth ∈ truths, truth = first) : settled truths = some first := by
  cases truths with
  | nil => exact nomatch hfirst
  | cons head rest =>
      injection hfirst with hfirst
      subst hfirst
      have hrest : ∀ truth ∈ rest, truth = head := fun t ht => hagree t (by simp [ht])
      simp only [settled, if_pos hrest]

theorem settled_of_differ {truths : List Bool} {first : Bool} (hfirst : truths.head? = some first)
    (hdiffer : ∃ truth ∈ truths, truth ≠ first) (more : List Bool) :
    settled (truths ++ more) = some (!first) := by
  cases truths with
  | nil => exact nomatch hfirst
  | cons head rest =>
      injection hfirst with hfirst
      subst hfirst
      obtain ⟨truth, hmem, hne⟩ := hdiffer
      have hrest : ¬ ∀ t ∈ rest ++ more, t = head := by
        intro hall
        rcases List.mem_cons.mp hmem with heq | hmem
        · exact hne heq
        · exact hne (hall truth (by simp [hmem]))
      simp only [List.cons_append, settled, if_neg hrest]

/-- Without forgetting: all lists only grow at their ends, and a stored concept keeps its shape.
From nothing on, the state of a pair is unknown until something is attempted on it; it is the
truth value attempted first, until the other one is attempted; and from then on it is the other
one for ever. A fact is accepted exactly when it changes the state of its pair. -/
theorem states_settled_by_attempts :
    (∀ (g : Graph) (before after : List Operation), .clear ∉ before ++ after →
      (g.performAll before).Grows (g.performAll (before ++ after)) ∧
        ∀ name concept, (g.performAll before).concept? name = some concept →
          (g.performAll (before ++ after)).concept? name = some concept) ∧
    (∀ ops : List Operation, .clear ∉ ops → ∀ pair : Pair,
      ((empty.performAll ops).state? pair = none ↔
        ∀ fact ∈ empty.attemptsAll ops, fact.pair ≠ pair) ∧
      ∀ first, (truthsOn pair (empty.attemptsAll ops)).head? = some first →
        ((∀ truth ∈ truthsOn pair (empty.attemptsAll ops), truth = first) →
          (empty.performAll ops).state? pair = some first) ∧
        ((∃ truth ∈ truthsOn pair (empty.attemptsAll ops), truth ≠ first) →
          ∀ more : List Operation, .clear ∉ more →
            (empty.performAll (ops ++ more)).state? pair = some (!first))) ∧
    (∀ (g : Graph) (fact : Fact),
      (g.record fact).1 = true ↔ (g.record fact).2.state? fact.pair ≠ g.state? fact.pair) := by
  refine ⟨?_, ?_, fun g fact => g.chain.record_fst_iff fact⟩
  · intro g before after hops
    have hafter : .clear ∉ after := fun h => hops (List.mem_append_right _ h)
    have hgrows := (g.performAll before).grows_performAll hafter
    rw [← performAll_append] at hgrows
    exact ⟨hgrows, fun name concept => hgrows.concept?⟩
  · intro ops hops pair
    refine ⟨?_, fun first hfirst => ⟨fun hagree => ?_, fun hdiffer more hmore => ?_⟩⟩
    · rw [state?_performAll hops, ← truthsOn_eq_nil_iff]
      cases truthsOn pair (empty.attemptsAll ops) <;> simp [settled]
    · rw [state?_performAll hops]
      exact settled_of_agree hfirst hagree
    · have hall : .clear ∉ ops ++ more := by simp [hops, hmore]
      rw [state?_performAll hall, attemptsAll_append, truthsOn_append]
      exact settled_of_differ hfirst hdiffer _

/-- A pair first decided by a completion pass, then contradicted, then stated again as it was: it
stays contradicted. -/
theorem contradicted_inference_stays :
    (empty.performAll ([.record ⟨⟨"a", "b"⟩, true, .identity⟩,
        .record ⟨⟨"b", "c"⟩, true, .property⟩, .complete,
        .record ⟨⟨"a", "c"⟩, false, .identity⟩] ++
      [.record ⟨⟨"a", "c"⟩, true, .identity⟩])).state? ⟨"a", "c"⟩ = some false :=
  ((states_settled_by_attempts.2.1 _ (by decide) ⟨"a", "c"⟩).2 true (by decide)).2 (by decide) _
    (by decide)

end States

end Graph
end RelationLang
