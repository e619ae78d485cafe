import RelationLang.Plugin
import RelationLang.Proofs.Graph.Consistency
import RelationLang.Proofs.Interpreter.Moment
import RelationLang.Verb

/-!
# Graphs that are reached

Callers operate on a graph directly, and hooks operate on it in the middle of runs that may fail
later. Whoever makes the operations, the graph stays consistent.

**Input.**  Hooks that change the graph by operations alone.

**Results.**
* `Vocabulary.Operates.keeps`: every moment of a run is reached by operations.
* `standard_operates`, `operates_changing`: the standard words, and hooks made from operations,
  change the graph by operations alone.
* `consistent_of_reached`: consistency, look-ups and sizes, for every graph that is reached.
-/

namespace RelationLang

open Program

/-- Each invocation changes the graph by operations, whatever it answers. -/
def Hook.Operates {μ : Type} (hook : Hook μ) : Prop :=
  ∀ clause store, ∃ ops, (hook.run clause store).2.graph = store.graph.performAll ops

/-- The hooks of all words change the graph by operations. -/
def Vocabulary.Operates {μ : Type} (vocabulary : Vocabulary μ) : Prop :=
  ∀ word hook, vocabulary.hook? word = some hook → hook.Operates

/-- Graphs that come about by operations, made by callers or by hooks at some moment of a run. -/
inductive Graph.Reached : Graph → Prop
  | empty : Reached .empty
  | perform {g : Graph} (op : Operation) :
      Reached g →
      Reached (g.perform op)
  | line {μ : Type} {i : Interpreter μ} {clause : Clause} {continued : Nat}
      {store now : Store μ} {calls : List Call} :
      i.vocabulary.Operates →
      Reached store.graph →
      i.LineMoment clause continued store calls now →
      Reached now.graph
  | program {μ : Type} {i : Interpreter μ} {turns : Nat} {statements : List Statement}
      {store now : Store μ} {calls : List Call} :
      i.vocabulary.Operates →
      Reached store.graph →
      i.Moment turns statements store calls now →
      Reached now.graph

section Runs

theorem addAtoms_eq_performAll (g : Graph) (names : List String) :
    g.addAtoms names = g.performAll (names.map .addAtom) := by
  induction names generalizing g with
  | nil => rfl
  | cons name rest ih => exact ih (g.addAtom name)

theorem recordAll_eq_performAll (g : Graph) (facts : List Fact) :
    g.recordAll facts = g.performAll (facts.map .record) := by
  induction facts generalizing g with
  | nil => rfl
  | cons fact rest ih => exact ih (g.record fact).2

/-- Every moment of a run is reached by operations. -/
theorem Vocabulary.Operates.keeps {μ : Type} {i : Interpreter μ} (h : i.vocabulary.Operates) :
    i.Keeps fun _ store => store.graph.Reachable where
  atoms := fun {_ store tokens} _ hstore => by
    have := hstore.performAll (tokens.map .addAtom)
    rwa [← addAtoms_eq_performAll] at this
  invoke := fun {_ store clause word hook} hleading hstore => by
    obtain ⟨ops, hops⟩ := h word hook (hook?_of_leading? hleading) clause store
    rw [hops]
    exact hstore.performAll ops
  box := fun tokens hstore => hstore.performAll [.addBox _ _]
  pass := fun {_ store} attempted hstore => by
    have := hstore.performAll ((store.graph.passAttempts.take attempted).map .record)
    rwa [← recordAll_eq_performAll] at this

theorem Graph.Reached.reachable {g : Graph} (h : g.Reached) : g.Reachable := by
  induction h with
  | empty => exact ⟨[], rfl⟩
  | perform op _ ih => exact ih.performAll [op]
  | line hoperates _ hmoment ih => exact hoperates.keeps.line [] ih hmoment
  | program hoperates _ hmoment ih => exact hoperates.keeps.moment [] ih hmoment

end Runs

section Words

variable {μ : Type}

theorem operates_hookWithKind (relation : Relation) (kind : FactKind) :
    (relation.hookWithKind kind : Hook μ).Operates := by
  intro clause store
  rcases relation.run_cases kind clause store with ⟨_, _, _, hrun⟩ | ⟨pair, _, hrun⟩ | ⟨_, hrun⟩
  · exact ⟨[], by rw [hrun]; rfl⟩
  · exact ⟨[.record ⟨pair, relation.truth, kind⟩], by rw [hrun]; rfl⟩
  · exact ⟨[], by rw [hrun]; rfl⟩

theorem operates_sayHook : (sayHook : Hook μ).Operates := by
  intro clause store
  rcases sayHook_run_cases clause store with ⟨_, hrun⟩ | ⟨_, hrun⟩
  · exact ⟨[], by rw [hrun]; rfl⟩
  · exact ⟨[], by rw [hrun]; rfl⟩

/-- The standard words change the graph by operations alone. -/
theorem standard_operates : (Vocabulary.standard : Vocabulary μ).Operates := by
  intro word hook hhook
  rw [Vocabulary.standard, Vocabulary.hook?_standardWithKinds] at hhook
  obtain ⟨verb, _, rfl⟩ := Option.map_eq_some_iff.mp hhook
  cases verb with
  | relation relation => exact operates_hookWithKind relation _
  | say => exact operates_sayHook

/-- A hook that makes operations, which depend on the line, changes the graph by operations
alone. -/
theorem operates_changing (verb : String) (change : List Token → Graph → Graph)
    (ops : List Token → List Operation)
    (h : ∀ tokens g, change tokens g = g.performAll (ops tokens)) :
    (Plugin.changing verb change : Hook μ).Operates :=
  fun clause store => ⟨ops clause.tokens, h clause.tokens store.graph⟩

theorem operates_add {vocabulary : Vocabulary μ} {hook : Hook μ} (h : vocabulary.Operates)
    (hhook : hook.Operates) : (vocabulary.add hook).Operates := by
  intro word found hfound
  rw [Vocabulary.add, Vocabulary.hook?_define] at hfound
  split at hfound
  · injection hfound with hfound
    exact hfound ▸ hhook
  · exact h word found hfound

end Words

/-- Every graph that is reached is consistent, its indexes answer what scans answer, it has at
most as many pairs as ways to choose two names, and at most two facts on each pair. -/
theorem Graph.consistent_of_reached {g : Graph} (h : g.Reached) :
    g.Consistent ∧ g.Scanned ∧ g.pairs.length ≤ g.concepts.length ^ 2 ∧
      g.facts.length ≤ 2 * g.pairs.length := by
  have hconsistent := h.reachable.consistent
  exact ⟨hconsistent, g.scanned, hconsistent.pairs_length_le, hconsistent.facts_length_le⟩

/-- The graph left by a program in which a hook makes a completion pass before a statement
fails. -/
theorem consistent_after_failure :
    ∃ report : Report Unit,
      (Interpreter.mk (Vocabulary.standard.add (Plugin.completing "close")) (some 1)).program 3
          [.plain ["a", "is", "b"], .plain ["b", "isnt", "c"], .plain ["close"], .plain ["say"]]
          (.fresh ()) = some report ∧
        report.error? = some (.usage "say" "say <words...>") ∧
        report.store.graph.facts.length = 3 ∧
        report.store.graph.Consistent ∧ report.store.graph.Scanned ∧
        report.store.graph.pairs.length ≤ report.store.graph.concepts.length ^ 2 ∧
        report.store.graph.facts.length ≤ 2 * report.store.graph.pairs.length := by
  obtain ⟨report, hreport⟩ := Option.isSome_iff_exists.mp (show Option.isSome
    ((Interpreter.mk (Vocabulary.standard.add (Plugin.completing "close")) (some 1)).program 3
      [.plain ["a", "is", "b"], .plain ["b", "isnt", "c"], .plain ["close"], .plain ["say"]]
      (.fresh ())) = true by decide)
  have hends : some (report.error?, report.store.graph.facts.length) =
      some (some (.usage "say" "say <words...>"), 3) := by
    rw [← Option.map_some (f := fun r : Report Unit => (r.error?, r.store.graph.facts.length)),
      ← hreport]
    decide
  obtain ⟨herror, hlength⟩ := Prod.mk.inj (Option.some.inj hends)
  have hoperates := operates_add standard_operates
    (operates_changing (μ := Unit) "close" (fun _ g => g.complete.2) (fun _ => [.complete])
      fun _ _ => rfl)
  exact ⟨report, hreport, herror, hlength, Graph.consistent_of_reached
    (.program (i := ⟨_, some 1⟩) hoperates .empty (Interpreter.program_moment _ hreport))⟩

end RelationLang
