import RelationLang.Plugin
import RelationLang.Proofs.Interpreter.Moment
import RelationLang.Proofs.Interpreter.Noting

/-!
# The queue and the log of invocations

**Input.**  An interpreter with any hooks, a line of a statement, and a store.

**Algorithm.**  The lines that hooks hand back go through a queue, and the interpreter lists the
invocations as it goes. Both are compared with something plainer: the queue with a recursion over
lines, and the list with a log that the hooks themselves note in the store.

**Results.**
* `leading?_eq_some_iff`: the leading word of a line is the leftmost one with a hook.
* `underway_queue_length_le`: the queue never holds more than one line.
* `LineEnds.calls_length`: a line makes one invocation for each continuation, or one more.
* `logged_line`, `logged_statement`: hooks that write a log do the same as before, and the log is
  the list of invocations.
* `queue_refines_recursion`: all of it.
-/

namespace RelationLang

open Program

section Definitions

variable {μ : Type}

/-- The interpreter whose hooks write a log of their invocations. -/
def Interpreter.logged (i : Interpreter μ) : Interpreter (List Call × μ) :=
  i.noting fun log call _ => log ++ [call]

end Definitions

section Vocabularies

variable {μ : Type}

/-- The leading word of a line is the leftmost one with a hook. -/
theorem leading?_eq_some_iff {vocabulary : Vocabulary μ} {tokens : List Token} {word : Token}
    {hook : Hook μ} :
    vocabulary.leading? tokens = some (word, hook) ↔
      ∃ before after, tokens = before ++ word :: after ∧ vocabulary.hook? word = some hook ∧
        ∀ token ∈ before, vocabulary.hook? token = none := by
  rw [Vocabulary.leading?, List.findSome?_eq_some_iff]
  constructor
  · rintro ⟨before, token, after, rfl, hfound, hbefore⟩
    obtain ⟨found, hhook, hpair⟩ := Option.map_eq_some_iff.mp hfound
    obtain ⟨rfl, rfl⟩ := Prod.mk.inj hpair
    exact ⟨before, after, rfl, hhook, by simpa using hbefore⟩
  · rintro ⟨before, after, rfl, hhook, hbefore⟩
    exact ⟨before, word, after, rfl, by simp [hhook], by simpa using hbefore⟩

end Vocabularies

namespace Interpreter

variable {μ : Type} (i : Interpreter μ)

section Queue

variable {i} {clause : Clause} {continued : Nat} {store : Store μ} {verdict : Verdict μ}

/-- The queue of a line never holds more than one line. -/
theorem underway_queue_length_le {work : Work μ}
    (h : i.Underway ⟨[clause], [], continued, store⟩ work) : work.queue.length ≤ 1 := by
  induction h with
  | refl => exact Nat.le_refl 1
  | turn _ hturn ih => exact i.turn_queue_length_le ih hturn

/-- A line makes one invocation for each of its continuations, or one more. -/
theorem LineEnds.calls_length (h : i.LineEnds clause continued store verdict) :
    verdict.calls.length + continued = verdict.continued ∨
      verdict.calls.length + continued = verdict.continued + 1 := by
  induction h with
  | atoms => simp
  | failed => simp [Nat.add_comm]
  | done => simp [Nat.add_comm]
  | refused => simp [Nat.add_comm]
  | continued _ _ _ _ _ ih =>
      simp only [Verdict.calls_after, Verdict.continued_after, List.length_append,
        List.length_singleton]
      omega

end Queue

section Log

/-- The log lists the invocations. -/
theorem keeps_log : i.logged.Keeps fun calls store => store.memory.1 = calls where
  atoms := fun _ h => h
  invoke := fun {calls store clause word hook} hleading h => by
    obtain ⟨plain, rfl⟩ := exists_noting_of_leading? _ hleading
    subst h
    rfl
  box := fun _ h => h
  pass := fun _ h => h

theorem logged_line (turns : Nat) (clause : Clause) (continued : Nat) (store : Store μ)
    (log : List Call) :
    i.logged.line turns clause continued (store.withNote log) =
      (i.line turns clause continued store).map fun verdict =>
        verdict.withNote (log ++ verdict.calls) :=
  eq_map_withNote (fun calls _ => log ++ calls)
    ((i.lockstep_noting _).line turns clause continued rfl)
    fun _ hline => i.keeps_log.line log rfl (i.logged.line_moment hline)

theorem logged_statement (turns : Nat) (s : Statement) (store : Store μ) (log : List Call) :
    i.logged.statement turns s (store.withNote log) =
      (i.statement turns s store).map fun verdict => verdict.withNote (log ++ verdict.calls) :=
  eq_map_withNote (fun calls _ => log ++ calls) ((i.lockstep_noting _).statement turns s rfl)
    fun _ hstatement => i.keeps_log.statement log rfl (i.logged.statement_moment hstatement)

end Log

section Refinement

/-- The queue ends a line as the recursion does: without a word that has a hook an atom is stored
for each new token in order; otherwise the hook of the leftmost such word is invoked, and unless it
fails or ends the line, what it hands back is run as a line without a block, if its continuation does
not exceed the limit. The queue never holds more than one line. A block-shaped statement is boxed,
and then runs its groups of three one after the other, each to the end of all its continuations. The
invocations listed are those that the hooks would write into a log, and they are as many as the
continuations, or one more. -/
theorem queue_refines_recursion :
    (∀ (tokens : List Token) (word : Token) (hook : Hook μ),
      i.vocabulary.leading? tokens = some (word, hook) ↔
        ∃ before after, tokens = before ++ word :: after ∧
          i.vocabulary.hook? word = some hook ∧
          ∀ token ∈ before, i.vocabulary.hook? token = none) ∧
    (∀ clause continued store verdict,
      (∃ turns, i.line turns clause continued store = some verdict) ↔
        i.LineEnds clause continued store verdict) ∧
    (∀ clause continued store work,
      i.Underway ⟨[clause], [], continued, store⟩ work → work.queue.length ≤ 1) ∧
    (∀ turns clause continued store log,
      i.logged.line turns clause continued (store.withNote log) =
        (i.line turns clause continued store).map fun verdict =>
          verdict.withNote (log ++ verdict.calls)) ∧
    (∀ turns clause continued store verdict,
      i.line turns clause continued store = some verdict →
        verdict.calls.length + continued = verdict.continued ∨
          verdict.calls.length + continued = verdict.continued + 1) ∧
    ∀ (s : Statement) store, blockShaped s.tokens = true →
      ∃ boxed, store.Boxes s.tokens boxed ∧
        (∀ verdict, i.Ends s store verdict ↔
          i.LinesEnd ((threes (allWords s.tokens)).map fun group => { tokens := group })
            ⟨none, [], 0, boxed⟩ verdict) ∧
        ∀ turns log, i.logged.statement turns s (store.withNote log) =
          (i.statement turns s store).map fun verdict =>
            verdict.withNote (log ++ verdict.calls) := by
  refine ⟨fun _ _ _ => leading?_eq_some_iff, fun _ _ _ _ => i.line_iff,
    fun _ _ _ _ => underway_queue_length_le, i.logged_line,
    fun turns clause continued store verdict hline => ?_,
    fun s store hshape => ⟨opened s store, boxes_opened hshape store, fun verdict => ?_,
      fun turns log => i.logged_statement turns s store log⟩⟩
  · exact (i.line_iff.mp ⟨turns, hline⟩).calls_length
  · rw [ends_iff, Statement.clauses, if_pos hshape]

/-- A line without a hook; a header whose hook drops the last token again and again, in a statement
that has continued twice before, without a limit and under one; and a block of two groups, of which
the second one waits for the first one to end. -/
theorem groups_run_to_their_ends :
    let i : Interpreter Unit := ⟨Vocabulary.empty.add (Plugin.droppingLast "more"), none⟩
    let limited : Interpreter Unit := { i with limit := some 2 }
    let header : Clause := { tokens := ["more", "a"], block := some ["b c"] }
    let s : Statement := { tokens := ["more a b", "more c d"], kind := .block }
    (∃ verdict, i.LineEnds { tokens := ["b", "a", "b"] } 0 (.fresh ()) verdict ∧
      verdict.store.graph.concepts = [.atom "b", .atom "a"]) ∧
    (∃ verdict, i.line 4 header 2 (.fresh ()) = some verdict ∧
      verdict.calls.map (·.clause) = [header, { tokens := ["more"] }] ∧
      (verdict.calls.length + 2 = verdict.continued ∨
        verdict.calls.length + 2 = verdict.continued + 1)) ∧
    (∃ verdict, limited.LineEnds header 2 (.fresh ()) verdict ∧
      verdict.error? = some (.continuationLimit 2)) ∧
    (∃ work, i.Underway ⟨[header], [], 2, .fresh ()⟩ work ∧ work.calls ≠ [] ∧
      work.queue.length ≤ 1) ∧
    ∃ boxed verdict, (Store.fresh ()).Boxes s.tokens boxed ∧
      boxed.graph.concepts = [.boxed "more a b more c d" ["more", "a", "b", "more", "c", "d"]] ∧
      i.Ends s (.fresh ()) verdict ∧
      i.LinesEnd ((threes (allWords s.tokens)).map fun group => { tokens := group })
        ⟨none, [], 0, boxed⟩ verdict ∧
      verdict.calls.map (·.clause.tokens) = [["more", "a", "b"], ["more", "a"], ["more"],
        ["more", "c", "d"], ["more", "c"], ["more"]] ∧
      i.logged.statement 5 s (.withNote (.fresh ()) []) =
        some (verdict.withNote verdict.calls) := by
  intro i limited header s
  obtain ⟨_, hlines, hqueue, _, hcount, hblock⟩ := queue_refines_recursion i
  obtain ⟨_, hlimited, _⟩ := queue_refines_recursion limited
  obtain ⟨line, hline, hlineCalls⟩ := (Option.any_eq_true _ _).mp (show
    (i.line 4 header 2 (.fresh ())).any (fun verdict => decide
      (verdict.calls.map (·.clause) = [header, { tokens := ["more"] }])) = true by decide)
  obtain ⟨refused, hrefused, herror⟩ := (Option.any_eq_true _ _).mp (show
    (limited.line 4 header 2 (.fresh ())).any (fun verdict => decide
      (verdict.error? = some (.continuationLimit 2))) = true by decide)
  obtain ⟨verdict, hverdict, hcalls⟩ := (Option.any_eq_true _ _).mp (show
    (i.statement 5 s (.fresh ())).any (fun verdict => decide
      (verdict.calls.map (·.clause.tokens) = [["more", "a", "b"], ["more", "a"], ["more"],
        ["more", "c", "d"], ["more", "c"], ["more"]])) = true by decide)
  have hunder : i.Underway ⟨[header], [], 2, .fresh ()⟩
      ⟨[{ tokens := ["more"] }], [⟨"more", header⟩], 3, .fresh ()⟩ := .turn .refl rfl
  obtain ⟨boxed, hboxed, hends, hlogged⟩ := hblock s (.fresh ()) (by decide)
  refine ⟨⟨_, (hlines _ _ _ _).mp ⟨2, rfl⟩, by decide⟩,
    ⟨line, hline, of_decide_eq_true hlineCalls, hcount 4 header 2 _ line hline⟩,
    ⟨refused, (hlimited _ _ _ _).mp ⟨4, hrefused⟩, of_decide_eq_true herror⟩,
    ⟨_, hunder, List.cons_ne_nil _ _, hqueue header 2 _ _ hunder⟩,
    boxed, verdict, hboxed, hboxed.graph.concepts.trans (by decide), ⟨5, hverdict⟩,
    (hends verdict).mp ⟨5, hverdict⟩, of_decide_eq_true hcalls, ?_⟩
  rw [hlogged 5 [], hverdict, Option.map_some, List.nil_append]

end Refinement

end Interpreter
end RelationLang
