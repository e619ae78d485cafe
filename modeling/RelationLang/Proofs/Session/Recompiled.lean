import RelationLang.Proofs.Graph.Restated
import RelationLang.Proofs.Interpreter.Reached
import RelationLang.Proofs.Interpreter.StandardLine
import RelationLang.Proofs.Program.ChainText
import RelationLang.Proofs.Session.Parts

/-!
# Output compiled again

The output of a session is a program. Names are written as they are, so the program may not say
what the chain says.

**Input.**  A session with the standard words alone, after any number of texts, and the text of its
chain.

**Algorithm.**  Another new session compiles the text. Each line asserts its fact, and the
completion pass after it may infer other facts before their own lines are reached.

**Results.**
* `standard_program_of_facts`: a program with one plain statement for each fact records the facts
  in order, with a completion pass after each.
* `recompiled_keeps_facts`: if all facts are legible, all of them are recorded again, and every pair
  with one truth value keeps its state.
* `output_recompiles`: the output of one text records its facts again if no name has a space and no
  blank stands at an end of a line.
* `not_every_output_recompiles`: without this condition the output can be no program at all.
-/

namespace RelationLang

open Program

section Definitions

/-- A new session with the standard words alone. -/
def Session.standard {μ : Type} (settings : Settings) (memory : μ) : Session μ :=
  ⟨.standard, settings, .fresh memory⟩

/-- The sessions that come about by compiling texts, whether or not they succeed. -/
inductive Session.Compiled {μ : Type} (first : Session μ) : Session μ → Prop
  | refl : Compiled first first
  | compile {session next : Session μ} {answer : Except Error String} (text : String) :
      Compiled first session →
      session.compile text = some (answer, next) →
      Compiled first next

/-- The word that stands for a truth value in the text of a fact, as a standard word. -/
def Relation.ofTruth (truth : Bool) : Relation := if truth then .is else .isnt

end Definitions

section Words

variable {fact : Fact}

@[simp] theorem Relation.word_ofTruth (truth : Bool) : (ofTruth truth).word = Fact.word truth := by
  cases truth <;> rfl

@[simp] theorem Relation.truth_ofTruth (truth : Bool) : (ofTruth truth).truth = truth := by
  cases truth <;> rfl

@[simp] theorem Relation.kind_ofTruth (truth : Bool) : (ofTruth truth).kind = .identity := by
  cases truth <;> rfl

/-- The leading word of the line of a fact is the one in the middle, if the subject is not
reserved. -/
theorem leftmost_of_fact (h : ¬ Reserved fact.pair.subject) :
    Leftmost fact.tokens [fact.pair.subject] (.relation (.ofTruth fact.truth)) [fact.pair.object] where
  split := by simp [Fact.tokens, Verb.word]
  free := by simpa using h

theorem not_blockShaped_of_fact (fact : Fact) : blockShaped fact.tokens = false := by
  have hword : Text.hasSpace (Fact.word fact.truth) = false := by
    cases fact.truth <;> decide
  simp [blockShaped, Fact.tokens, hword]

end Words

namespace Interpreter

section Facts

variable {μ : Type} (limit : Option Nat) {fact : Fact}

/-- The line of a fact records the fact and nothing else. -/
theorem standard_line_of_fact (h : ¬ Reserved fact.pair.subject) (turns continued : Nat)
    (block : Option (List Token)) (store : Store μ) :
    (standard limit).line (turns + 2) ⟨fact.tokens, block⟩ continued store =
      some ⟨none, [⟨Fact.word fact.truth, ⟨fact.tokens, block⟩⟩], continued,
        store.mapGraph fun g => (g.record fact.plain).2⟩ := by
  have hrun : (Relation.ofTruth fact.truth).hook.run ⟨fact.tokens, block⟩ store =
      (.ok .done, store.mapGraph fun g => (g.record fact.plain).2) := by
    simp only [Relation.hook, Relation.hookWithKind, (leftmost_of_fact h).use_eq_assertion,
      Relation.truth_ofTruth, Relation.kind_ofTruth]
    rfl
  have hleading : (standard limit : Interpreter μ).vocabulary.leading? fact.tokens =
      some (Fact.word fact.truth, (Relation.ofTruth fact.truth).hook) := by
    rw [standard_leading?_of_leftmost (leftmost_of_fact h), ← Relation.word_ofTruth]
    rfl
  -- The first turn invokes the word, and the second one finds no line waiting.
  simp only [line, drain, turn, hleading, hrun, Outcome.next]
  rfl

theorem standard_program_of_fact (h : ¬ Reserved fact.pair.subject) (turns : Nat)
    (store : Store μ) :
    ∃ report, (standard limit).program (turns + 2) [.plain fact.tokens] store = some report ∧
      report.error? = none ∧
        report.store = store.mapGraph fun g => (g.record fact.plain).2.complete.2 := by
  have hstatement : (standard limit).statement (turns + 2) (.plain fact.tokens) store =
      some ⟨none, [⟨Fact.word fact.truth, ⟨fact.tokens, none⟩⟩], 0,
        store.mapGraph fun g => (g.record fact.plain).2⟩ := by
    have hshape : blockShaped (Statement.plain fact.tokens).tokens = false :=
      not_blockShaped_of_fact fact
    rw [statement, hshape]
    exact standard_line_of_fact limit h turns 0 none store
  simp only [program, hstatement]
  exact ⟨_, rfl, rfl, rfl⟩

/-- The statements of facts record the facts in order, with a completion pass after each. -/
theorem standard_program_of_facts (turns : Nat) {facts : List Fact}
    (h : ∀ fact ∈ facts, ¬ Reserved fact.pair.subject) (store : Store μ) :
    ∃ report, (standard limit).program (turns + 2) (facts.map fun fact => .plain fact.tokens)
        store = some report ∧
      report.error? = none ∧ report.store = store.mapGraph fun g => g.restate facts := by
  induction facts generalizing store with
  | nil => exact ⟨_, rfl, rfl, rfl⟩
  | cons fact rest ih =>
      rw [List.forall_mem_cons] at h
      obtain ⟨first, hfirst, hnone, hafter⟩ := standard_program_of_fact limit h.1 turns store
      obtain ⟨report, hreport, herror, hstore⟩ := ih h.2 first.store
      refine ⟨first.andThen report, ?_, herror, ?_⟩
      · rw [List.map_cons, program_cons, hfirst, Option.bind_some,
          Report.proceed_of_success hnone, hreport, Option.map_some]
      · rw [Report.andThen, hstore, hafter]
        rfl

theorem exists_turns (i : Interpreter μ) : ∃ n, i.turns = n + 2 := by
  unfold turns
  cases i.limit with
  | none => exact ⟨UInt64.size - 2, by decide⟩
  | some limit => exact ⟨limit, rfl⟩

end Facts

end Interpreter

namespace Session

section Sessions

variable {μ : Type} {settings : Settings} {first session next : Session μ} {memory : μ}

theorem eq_of_start (h : start settings .empty memory = .ok session) :
    session = .standard settings memory := by
  have hmerge : (Vocabulary.standard : Vocabulary μ).merge .empty = .standard := by
    simp [Vocabulary.merge, Vocabulary.empty, Vocabulary.contains, Vocabulary.hook?]
  unfold start Settings.checked at h
  split at h
  · cases h
  · next hchecked =>
      split at hchecked
      · cases hchecked
      · cases hchecked
        cases h
        rw [hmerge, standard]

theorem exists_report {text : String} {answer : Except Error String}
    (h : session.compile text = some (answer, next)) :
    ∃ report, session.report text = some report ∧
      next = { session with store := report.store } ∧
        (∀ output, answer = .ok output → output = next.output) := by
  rw [compile_eq] at h
  obtain ⟨report, hreport, hanswer⟩ := Option.map_eq_some_iff.mp h
  refine ⟨report, hreport, ?_⟩
  cases herror : report.error? with
  | some error =>
      rw [session.answer_of_error herror] at hanswer
      obtain ⟨rfl, rfl⟩ := Prod.mk.inj hanswer
      exact ⟨rfl, fun _ h => nomatch h⟩
  | none =>
      rw [session.answer_of_success herror] at hanswer
      obtain ⟨rfl, rfl⟩ := Prod.mk.inj hanswer
      refine ⟨rfl, fun output houtput => ?_⟩
      injection houtput with houtput
      exact houtput.symm

/-- Texts compiled in a new session without plugins are run with the standard words. -/
theorem Compiled.standardRun (hstart : start settings .empty memory = .ok first)
    (h : Compiled first session) :
    session.vocabulary = .standard ∧
      ∃ calls, Interpreter.StandardRun calls session.store := by
  induction h with
  | refl =>
      rw [eq_of_start hstart]
      exact ⟨rfl, [], .fresh memory⟩
  | @compile session next answer text _ hcompile ih =>
      obtain ⟨hvocabulary, calls, hrun⟩ := ih
      obtain ⟨report, hreport, rfl, _⟩ := exists_report hcompile
      refine ⟨hvocabulary, calls ++ report.calls, ?_⟩
      have hstandard : session.interpreter = .standard session.settings.limit := by
        rw [interpreter, hvocabulary]
        rfl
      rw [Session.report, hstandard] at hreport
      exact .program _ _ _ hrun hreport

/-- The text of a chain of legible facts, compiled in a new session, states the facts again. -/
theorem compile_text {g : Graph} (hlegible : ∀ fact ∈ g.facts, fact.Legible)
    (hreserved : ∀ fact ∈ g.facts, ¬ Reserved fact.pair.subject)
    (hstart : start settings .empty memory = .ok first) :
    ∃ text last, first.compile g.text = some (.ok text, last) ∧
      last.store.graph = Graph.empty.restate g.facts := by
  obtain ⟨n, hturns⟩ := first.interpreter.exists_turns
  have hstandard : first.interpreter = .standard settings.limit := by
    rw [eq_of_start hstart]
    rfl
  have hstatements : statements g.text = g.facts.map fun fact => .plain fact.tokens :=
    Chain.statements_text hlegible
  obtain ⟨report, hreport, herror, hstore⟩ :=
    Interpreter.standard_program_of_facts settings.limit n hreserved first.store
  have hcompile : first.report g.text = some report := by
    rw [Session.report, hturns, hstandard, Interpreter.source, hstatements]
    exact hreport
  rw [compile_eq, hcompile, Option.map_some, first.answer_of_success herror]
  refine ⟨_, _, rfl, ?_⟩
  rw [hstore, eq_of_start hstart]
  rfl

/-- In a session with the standard words the pairs of all facts are stored, and their subjects are
not reserved. -/
theorem Compiled.facts (hstart : start settings .empty memory = .ok first)
    (h : Compiled first session) :
    ∀ fact ∈ session.store.graph.facts,
      fact.pair ∈ session.store.graph.pairs ∧ ¬ Reserved fact.pair.subject := by
  obtain ⟨_, calls, hrun⟩ := h.standardRun hstart
  have hreachable : session.store.graph.Reachable :=
    hrun.keeps (fun limit => standard_operates.keeps) fun _ => ⟨[], rfl⟩
  intro fact hfact
  have hpair := hreachable.consistent.facts fact hfact
  exact ⟨hpair, hrun.moment.subject_not_reserved _ hpair⟩

/-- The names in the facts of one text are not empty and contain no line feed. -/
theorem names_of_compile {source : String} {answer : Except Error String}
    (hstart : start settings .empty memory = .ok first)
    (hcompile : first.compile source = some (answer, session)) :
    ∀ pair ∈ session.store.graph.pairs, (pair.subject ≠ "" ∧ '\n' ∉ pair.subject.toList) ∧
      pair.object ≠ "" ∧ '\n' ∉ pair.object.toList := by
  obtain ⟨report, hreport, rfl, _⟩ := exists_report hcompile
  rw [eq_of_start hstart] at hreport
  have hprogram : (Interpreter.standard settings.limit).program _ (statements source)
      (.fresh memory) = some report := hreport
  intro pair hpair
  obtain ⟨⟨s, hs, hsubject⟩, t, ht, hobject⟩ := Interpreter.ends_of_program hprogram pair hpair
  exact ⟨names_of_source hs _ hsubject, names_of_source ht _ hobject⟩

end Sessions

end Session

/-- The text of the chain of a session that has compiled texts with the standard words alone, some
of which may have failed, compiles in every new session if all facts are legible. The facts are
all recorded again, and a pair that occurs with one truth value keeps its state, although
the completion passes may have inferred the other one before its own line was reached. -/
theorem recompiled_keeps_facts {μ ν : Type} {settings settings' : Settings} {memory : μ}
    {memory' : ν} {first session : Session μ} {fresh : Session ν}
    (hstart : Session.start settings .empty memory = .ok first)
    (hsession : first.Compiled session)
    (hlegible : ∀ fact ∈ session.store.graph.facts, fact.Legible)
    (hfresh : Session.start settings' .empty memory' = .ok fresh) :
    ∃ text last, fresh.compile session.store.graph.text = some (.ok text, last) ∧
      (∀ signed, session.store.graph.chain.Records signed →
        last.store.graph.chain.Records signed) ∧
      ∀ pair truth, session.store.graph.chain.Records ⟨pair, truth⟩ →
        ¬ session.store.graph.chain.Records ⟨pair, !truth⟩ →
          session.store.graph.state? pair = some truth ∧
            last.store.graph.state? pair = some truth := by
  have hreserved : ∀ fact ∈ session.store.graph.facts, ¬ Reserved fact.pair.subject :=
    fun fact hfact => (hsession.facts hstart fact hfact).2
  obtain ⟨text, last, hcompile, hgraph⟩ := Session.compile_text hlegible hreserved hfresh
  refine ⟨text, last, hcompile, ?_, ?_⟩
  · intro signed hsigned
    rw [hgraph]
    exact Graph.records_restate_facts hsigned
  · intro pair truth hrecords honly
    rw [hgraph]
    exact Graph.state?_restate_facts hrecords honly

/-- A text that fails, and a block that denies what its other lines suggest: compiled again, the
output first suggests what it denies later. -/
theorem denied_suggestion_recompiled :
    ∃ first session fresh : Session Unit,
      Session.start {} .empty () = .ok first ∧ first.Compiled session ∧
        (∀ fact ∈ session.store.graph.facts, fact.Legible) ∧
        Session.start { limit := some 1, finalNewline := true } .empty () = .ok fresh ∧
        session.store.graph.chain.Records ⟨⟨"bat", "bird"⟩, false⟩ ∧
        ¬ session.store.graph.chain.Records ⟨⟨"bat", "bird"⟩, true⟩ ∧
        ∃ text last, fresh.compile session.store.graph.text = some (.ok text, last) ∧
          last.store.graph.chain.Records ⟨⟨"bat", "bird"⟩, true⟩ ∧
          (∀ signed, session.store.graph.chain.Records signed →
            last.store.graph.chain.Records signed) ∧
          session.store.graph.state? ⟨"bat", "bird"⟩ = some false ∧
            last.store.graph.state? ⟨"bat", "bird"⟩ = some false := by
  have hruns : (((Session.standard {} ()).compile "say").bind fun failed =>
      failed.2.compile "animals\n bat is winged\n winged is bird\n bat isnt bird").any
        (fun done => decide ((∀ fact ∈ done.2.store.graph.facts, fact.Legible) ∧
          done.2.store.graph.chain.Records ⟨⟨"bat", "bird"⟩, false⟩ ∧
          ¬ done.2.store.graph.chain.Records ⟨⟨"bat", "bird"⟩, true⟩ ∧
          ((Session.standard { limit := some 1, finalNewline := true } ()).compile
            done.2.store.graph.text).any (fun again => decide
            (again.2.store.graph.chain.Records ⟨⟨"bat", "bird"⟩, true⟩)) = true)) = true := by
    decide +kernel
  obtain ⟨⟨answer, session⟩, hsession, hdecided⟩ := (Option.any_eq_true _ _).mp hruns
  obtain ⟨⟨error, failed⟩, hfailed, hdone⟩ := Option.bind_eq_some_iff.mp hsession
  obtain ⟨hlegible, hdenied, hnot, hagain⟩ := of_decide_eq_true hdecided
  have hcompiled : (Session.standard {} ()).Compiled session :=
    .compile _ (.compile _ .refl hfailed) hdone
  have hstart : Session.start {} .empty () = .ok (.standard {} ()) := rfl
  have hfresh : Session.start { limit := some 1, finalNewline := true } .empty () =
      .ok (.standard { limit := some 1, finalNewline := true } ()) := rfl
  obtain ⟨text, last, hcompile, hrecords, hstate⟩ :=
    recompiled_keeps_facts hstart hcompiled hlegible hfresh
  rw [hcompile] at hagain
  exact ⟨_, session, _, hstart, hcompiled, hlegible, hfresh, hdenied, hnot, text, last,
    hcompile, of_decide_eq_true hagain, hrecords, hstate _ _ hdenied hnot⟩

/-- The output of a text, compiled with the standard words and the default settings, is a program
that records all the facts again in every new session, if no name of a fact has a space and no
blank stands at an end of the line of a fact. -/
theorem output_recompiles {μ ν : Type} {settings' : Settings} {memory : μ} {memory' : ν}
    {source output : String} {first after : Session μ} {fresh : Session ν}
    (hstart : Session.start {} .empty memory = .ok first)
    (hcompile : first.compile source = some (.ok output, after))
    (hseparable : ∀ fact ∈ after.store.graph.facts, fact.Separable)
    (hfresh : Session.start settings' .empty memory' = .ok fresh) :
    ∃ text last, fresh.compile output = some (.ok text, last) ∧
      ∀ signed, after.store.graph.chain.Records signed →
        last.store.graph.chain.Records signed := by
  have hafter : first.Compiled after := .compile source .refl hcompile
  have hfacts := hafter.facts hstart
  have hlegible : ∀ fact ∈ after.store.graph.facts, fact.Legible := by
    intro fact hfact
    obtain ⟨⟨hsubject, hsubject'⟩, hobject, hobject'⟩ :=
      Session.names_of_compile hstart hcompile _ (hfacts fact hfact).1
    exact ⟨hseparable fact hfact, hsubject, hobject, hsubject', hobject'⟩
  have houtput : output = after.store.graph.text := by
    obtain ⟨report, _, rfl, houtput⟩ := Session.exists_report hcompile
    rw [houtput output rfl, Session.eq_of_start hstart]
    rfl
  obtain ⟨text, last, htext, hgraph⟩ :=
    Session.compile_text hlegible (fun fact hfact => (hfacts fact hfact).2) hfresh
  refine ⟨text, last, houtput ▸ htext, ?_⟩
  intro signed hsigned
  rw [hgraph]
  exact Graph.records_restate_facts hsigned

/-- A block and a guard, whose output is compiled again. -/
theorem pets_recompiled :
    ∃ first after fresh : Session Unit, ∃ output,
      Session.start {} .empty () = .ok first ∧
        first.compile "pets\n cat is animal\n animal isnt plant\nis cat animal cat has fur" =
          some (.ok output, after) ∧
        (∀ fact ∈ after.store.graph.facts, fact.Separable) ∧
        Session.start {} .empty () = .ok fresh ∧
        after.store.graph.facts.length = 4 ∧
        ∃ text last, fresh.compile output = some (.ok text, last) ∧
          ∀ signed, after.store.graph.chain.Records signed →
            last.store.graph.chain.Records signed := by
  have hruns : ((Session.standard {} ()).compile
      "pets\n cat is animal\n animal isnt plant\nis cat animal cat has fur").any
        (fun done => decide (done.1.toBool = true ∧
          (∀ fact ∈ done.2.store.graph.facts, fact.Separable) ∧
          done.2.store.graph.facts.length = 4)) = true := by
    decide +kernel
  obtain ⟨⟨answer, after⟩, hcompile, hdecided⟩ := (Option.any_eq_true _ _).mp hruns
  obtain ⟨hok, hseparable, hlength⟩ := of_decide_eq_true hdecided
  have hstart : Session.start {} .empty () = .ok (.standard {} ()) := rfl
  cases answer with
  | error error => exact nomatch hok
  | ok output =>
      exact ⟨_, after, _, output, hstart, hcompile, hseparable, hstart, hlength,
        output_recompiles hstart hcompile hseparable hstart⟩

/-- A block whose lines are not all of several words is dispatched with whole lines as tokens, and
a line of two words becomes a name: the output is then no program. -/
theorem not_every_output_recompiles :
    ¬ ∀ (source output : String) (first after fresh : Session Unit),
      Session.start {} .empty () = .ok first →
        first.compile source = some (.ok output, after) →
          Session.start {} .empty () = .ok fresh →
            ∃ text last, fresh.compile output = some (.ok text, last) ∧
              ∀ signed, after.store.graph.chain.Records signed →
                last.store.graph.chain.Records signed := by
  intro hevery
  have hstart : Session.start {} .empty () = .ok (.standard {} ()) := rfl
  have hruns : ((Session.standard {} ()).compile "x\n a b\n is\n c").any
      (fun done => decide (done.1.toOption = some "a b is c")) = true := by
    decide
  have hagain : ((Session.standard {} ()).compile "a b is c").any
      (fun done => done.1.toBool) = false := by
    decide
  obtain ⟨⟨answer, after⟩, hcompile, hdecided⟩ := (Option.any_eq_true _ _).mp hruns
  cases answer with
  | error error => exact nomatch of_decide_eq_true hdecided
  | ok output =>
      obtain rfl := Option.some.inj (of_decide_eq_true hdecided)
      obtain ⟨text, last, hlast, _⟩ := hevery _ _ _ _ _ hstart hcompile hstart
      rw [hlast] at hagain
      exact nomatch hagain

-- A blank at the start of a name is no error, but its line is taken for a block.
example : ["a is b\nis a b \tc is d", "a is b\n\tc is d"].map (fun source =>
    ((Session.standard {} ()).compile source).bind (·.1.toOption)) =
      [some "a is b\n\tc is d", some "a is b\nc is d"] := by
  decide

end RelationLang
