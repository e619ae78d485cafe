import RelationLang.Proofs.Graph.Labelling
import RelationLang.Proofs.Interpreter.Names
import RelationLang.Proofs.Interpreter.Reached

/-!
# Graphs of standard programs

Programs that use the standard words make only some of the graphs that callers can make.

**Input.**  Any number of programs, run with the standard words from nothing.

**Results.**
* `standard_keeps_stated`: no pair is ever stored without a fact.
* `standard_keeps_boxes`: boxes are named by their contents.
* `standard_graphs_orderly`: the subjects of pairs, the facts on pairs, and the boxes, at every
  moment of the programs.
-/

namespace RelationLang

open Program Text

section Definitions

/-- If the concept is a box, its name is the text of its content, and its content is the list of
the words in its name. -/
def Concept.NamedByContent : Concept → Prop
  | .atom _ => True
  | .boxed name content => name = unwords content ∧ content = words name

/-- All boxes are named by their contents. -/
def Graph.BoxesNamed (g : Graph) : Prop := ∀ concept ∈ g.concepts, concept.NamedByContent

end Definitions

theorem reserved_iff {name : String} :
    Reserved name ↔ name ∈ ["is", "isnt", "has", "hasnt", "say"] := by
  have hwords : ["is", "isnt", "has", "hasnt", "say"] = Verb.all.map Verb.word := rfl
  rw [hwords, Reserved, Verb.ofWord?, List.find?_isSome, List.mem_map]
  simp

namespace Graph

section Boxes

variable {g : Graph}

theorem boxesNamed_empty : empty.BoxesNamed := by simp [BoxesNamed]

theorem BoxesNamed.insert (h : g.BoxesNamed) {concept : Concept}
    (hconcept : concept.NamedByContent) : (g.insert concept).BoxesNamed := by
  unfold BoxesNamed
  rw [insert_concepts]
  split
  · exact h
  · exact List.forall_mem_append.mpr ⟨h, by simpa using hconcept⟩

theorem BoxesNamed.addAtoms (h : g.BoxesNamed) (names : List String) :
    (g.addAtoms names).BoxesNamed := by
  induction names generalizing g with
  | nil => exact h
  | cons name rest ih => exact ih (h.insert (show (Concept.atom name).NamedByContent from trivial))

theorem BoxesNamed.record (h : g.BoxesNamed) (fact : Fact) : (g.record fact).2.BoxesNamed :=
  h.addAtoms [fact.pair.subject, fact.pair.object]

theorem BoxesNamed.recordAll (h : g.BoxesNamed) (facts : List Fact) :
    (g.recordAll facts).BoxesNamed :=
  recordAll_induction (fun _ fact h => h.record fact) h facts

/-- The words of any lines are words of the text that they make together. -/
theorem namedByContent_of_words (lines : List Token) :
    (Concept.boxed (unwords (allWords lines)) (allWords lines)).NamedByContent := by
  refine ⟨rfl, (words_unwords fun word hword => ?_).symm⟩
  obtain ⟨line, _, hword⟩ := List.mem_flatMap.mp hword
  exact (mem_splitWords hword).1

end Boxes

end Graph

namespace Interpreter

variable {μ : Type}

/-- No pair is ever stored without a fact. -/
theorem standard_keeps_stated (limit : Option Nat) :
    (standard limit : Interpreter μ).Keeps fun _ store => store.graph.Stated where
  atoms := fun {_ store tokens} _ h => by
    unfold Graph.Stated
    rw [Store.mapGraph, Graph.facts, Graph.addAtoms_pairs, Graph.addAtoms_chain]
    exact h
  invoke := fun {_ store _ _ _} hleading h => by
    rcases standard_invoke hleading store with ⟨_, hgraph⟩ | ⟨fact, _, hgraph⟩
    · rw [hgraph]
      exact h
    · rw [hgraph]
      exact h.record fact
  box := fun _ h => h
  pass := fun _ h => h.recordAll _

/-- Blocks are boxed under their text, and nothing else makes a box. -/
theorem standard_keeps_boxes (limit : Option Nat) :
    (standard limit : Interpreter μ).Keeps fun _ store => store.graph.BoxesNamed where
  atoms := fun _ h => h.addAtoms _
  invoke := fun {_ store _ _ _} hleading h => by
    rcases standard_invoke hleading store with ⟨_, hgraph⟩ | ⟨fact, _, hgraph⟩
    · rw [hgraph]
      exact h
    · rw [hgraph]
      exact h.record fact
  box := fun lines h => h.insert (Graph.namedByContent_of_words lines)
  pass := fun _ h => h.recordAll _

theorem StandardMoment.reachable {calls : List Call} {store : Store μ}
    (h : StandardMoment calls store) : store.graph.Reachable :=
  h.keeps (fun _ => Vocabulary.Operates.keeps (i := standard _) standard_operates)
    fun _ => ⟨[], rfl⟩

/-- At every moment of any programs with the standard words: no pair, and so no fact, has a
reserved word as its subject; every pair has a fact, so that its state is known and there are at
least as many facts as pairs and at most twice as many; and the name and the content of every box
determine each other. -/
theorem standard_graphs_orderly {calls : List Call} {store : Store μ}
    (h : StandardMoment calls store) :
    ((∀ pair ∈ store.graph.pairs, pair.subject ∉ ["is", "isnt", "has", "hasnt", "say"]) ∧
      ∀ fact ∈ store.graph.facts, fact.pair.subject ∉ ["is", "isnt", "has", "hasnt", "say"]) ∧
    ((∀ pair ∈ store.graph.pairs, (∃ fact ∈ store.graph.facts, fact.pair = pair) ∧
        (store.graph.state? pair).isSome = true) ∧
      store.graph.pairs.length ≤ store.graph.facts.length ∧
      store.graph.facts.length ≤ 2 * store.graph.pairs.length) ∧
    ∀ name content, .boxed name content ∈ store.graph.concepts →
      name = unwords content ∧ content = words name := by
  have hconsistent := h.reachable.consistent
  have hstated : store.graph.Stated :=
    h.keeps (standard_keeps_stated (μ := μ)) fun _ => Graph.stated_empty
  have hboxes : store.graph.BoxesNamed :=
    h.keeps (standard_keeps_boxes (μ := μ)) fun _ => Graph.boxesNamed_empty
  have hsubjects : ∀ pair ∈ store.graph.pairs,
      pair.subject ∉ ["is", "isnt", "has", "hasnt", "say"] :=
    fun pair hpair => mt reserved_iff.mpr (h.subject_not_reserved pair hpair)
  refine ⟨⟨hsubjects, fun fact hfact => hsubjects _ (hconsistent.facts fact hfact)⟩,
    ⟨fun pair hpair => ⟨hstated pair hpair, hstated.state?_isSome hpair⟩,
      hstated.pairs_length_le, hconsistent.facts_length_le⟩, ?_⟩
  exact fun name content hmem => hboxes _ hmem

/-- A block whose second line is misused, after two assertions from which a third follows, under a
limit of no continuation: a reserved word is an object, and the box is kept. -/
theorem block_misused_after_inference :
    ∃ report : Report Unit,
      (standard (some 0)).program 2
          ([.plain ["cat", "isnt", "say"], .plain ["pet", "has", "cat"]] ++
            Statement.headed ["more"] ["pet is  tame", "so it is"])
          (.fresh ()) = some report ∧
        report.error? = some Relation.is.usage ∧
        (⟨⟨"pet", "say"⟩, false, .identity⟩ : Fact) ∈ report.store.graph.facts ∧
        .boxed "pet is tame so it is" ["pet", "is", "tame", "so", "it", "is"] ∈
          report.store.graph.concepts ∧
        (∀ pair ∈ report.store.graph.pairs,
          pair.subject ∉ ["is", "isnt", "has", "hasnt", "say"]) ∧
        report.store.graph.pairs.length ≤ report.store.graph.facts.length ∧
        ∀ name content, .boxed name content ∈ report.store.graph.concepts →
          name = unwords content ∧ content = words name := by
  have hrun : ((standard (some 0)).program 2
      ([.plain ["cat", "isnt", "say"], .plain ["pet", "has", "cat"]] ++
        Statement.headed ["more"] ["pet is  tame", "so it is"])
      (Store.fresh ())).any (fun r : Report Unit => decide
        (r.error? = some Relation.is.usage ∧
          (⟨⟨"pet", "say"⟩, false, .identity⟩ : Fact) ∈ r.store.graph.facts ∧
          .boxed "pet is tame so it is" ["pet", "is", "tame", "so", "it", "is"] ∈
            r.store.graph.concepts)) = true := by decide
  obtain ⟨report, hreport, hdecided⟩ := (Option.any_eq_true _ _).mp hrun
  obtain ⟨herror, hfact, hbox⟩ := of_decide_eq_true hdecided
  have horderly := standard_graphs_orderly
    (StandardRun.program (some 0) 2 _ (.fresh ()) hreport).moment
  exact ⟨report, hreport, herror, hfact, hbox, horderly.1.1, horderly.2.1.2.1, horderly.2.2⟩

end Interpreter
end RelationLang
