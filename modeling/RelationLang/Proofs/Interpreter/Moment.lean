import RelationLang.Proofs.Graph.Operation
import RelationLang.Proofs.Interpreter.Ending

/-!
# Moments of a run

The store changes many times while a program runs, and a run may be given up in the middle of a
statement. A moment of a run is a store that comes about in it, together with the invocations
made up to then.

**Input.**  An interpreter, and statements to run from a store.

**Results.**
* `turn_effect`: what one turn can do to the store and to the invocations made.
* `program_moment`: the end of a run, with or without an error, is a moment of it.
* `Keeps.moment`: what each turn, each box and each part of a completion pass keeps holds at
  every moment.
-/

namespace RelationLang

open Program

namespace Turn

variable {μ : Type}

def calls : Turn μ → List Call
  | .ended verdict => verdict.calls
  | .going work => work.calls.reverse

def store : Turn μ → Store μ
  | .ended verdict => verdict.store
  | .going work => work.store

end Turn

namespace Interpreter

variable {μ : Type} (i : Interpreter μ)

section Definitions

/-- Work that comes about when turns are taken. -/
inductive Underway (start : Work μ) : Work μ → Prop
  | refl : Underway start start
  | turn {now next : Work μ} :
      Underway start now →
      i.turn now = .going next →
      Underway start next

/-- The moments of running waiting lines; the last turn may end them. -/
inductive WorkMoment (start : Work μ) : List Call → Store μ → Prop
  | going {now : Work μ} :
      i.Underway start now →
      WorkMoment start now.calls.reverse now.store
  | ended {now : Work μ} {verdict : Verdict μ} :
      i.Underway start now →
      i.turn now = .ended verdict →
      WorkMoment start verdict.calls verdict.store

/-- The moments of running one line of a statement. -/
def LineMoment (clause : Clause) (continued : Nat) (store : Store μ) :
    List Call → Store μ → Prop :=
  i.WorkMoment ⟨[clause], [], continued, store⟩

/-- The moments of running lines one after the other. -/
inductive LinesMoment (turns : Nat) :
    List Clause → Nat → Store μ → List Call → Store μ → Prop
  | start (clauses : List Clause) (continued : Nat) (store : Store μ) :
      LinesMoment turns clauses continued store [] store
  | within {clause : Clause} {rest : List Clause} {continued : Nat} {store : Store μ}
      {calls : List Call} {now : Store μ} :
      i.LineMoment clause continued store calls now →
      LinesMoment turns (clause :: rest) continued store calls now
  | later {clause : Clause} {rest : List Clause} {continued : Nat} {store : Store μ}
      {verdict : Verdict μ} {calls : List Call} {now : Store μ} :
      i.line turns clause continued store = some verdict →
      verdict.error? = none →
      LinesMoment turns rest verdict.continued verdict.store calls now →
      LinesMoment turns (clause :: rest) continued store (verdict.calls ++ calls) now

/-- The moments of running one statement. -/
inductive StatementMoment (turns : Nat) (statement : Statement) (store : Store μ) :
    List Call → Store μ → Prop
  | line {calls : List Call} {now : Store μ} :
      blockShaped statement.tokens = false →
      i.LineMoment { tokens := statement.tokens, block := statement.block } 0 store calls now →
      StatementMoment turns statement store calls now
  | block {calls : List Call} {now : Store μ} :
      blockShaped statement.tokens = true →
      i.LinesMoment turns
        ((threes (allWords statement.tokens)).map fun group => { tokens := group }) 0
        (box statement.tokens store) calls now →
      StatementMoment turns statement store calls now

/-- The store in the middle of a completion pass, after some of the attempts. -/
def midPass (attempted : Nat) (store : Store μ) : Store μ :=
  store.mapGraph fun g => g.recordAll (g.passAttempts.take attempted)

/-- The moments of running a program. -/
inductive Moment (turns : Nat) : List Statement → Store μ → List Call → Store μ → Prop
  | start (statements : List Statement) (store : Store μ) :
      Moment turns statements store [] store
  | within {first : Statement} {rest : List Statement} {store : Store μ} {calls : List Call}
      {now : Store μ} :
      i.StatementMoment turns first store calls now →
      Moment turns (first :: rest) store calls now
  | completing {first : Statement} {rest : List Statement} {store : Store μ}
      {verdict : Verdict μ} (attempted : Nat) :
      i.statement turns first store = some verdict →
      verdict.error? = none →
      Moment turns (first :: rest) store verdict.calls (midPass attempted verdict.store)
  | later {first : Statement} {rest : List Statement} {store : Store μ}
      {verdict : Verdict μ} {calls : List Call} {now : Store μ} :
      i.statement turns first store = some verdict →
      verdict.error? = none →
      Moment turns rest (verdict.store.mapGraph fun g => g.complete.2) calls now →
      Moment turns (first :: rest) store (verdict.calls ++ calls) now

end Definitions

section Ends

/-- A turn ends the work, stores the tokens of a line without reserved words, or makes one
invocation. -/
theorem turn_effect (work : Work μ) :
    (work.queue = [] ∧ (i.turn work).calls = work.calls.reverse ∧
      (i.turn work).store = work.store) ∨
    (∃ clause queue, work.queue = clause :: queue ∧
      i.vocabulary.leading? clause.tokens = none ∧
      (i.turn work).calls = work.calls.reverse ∧
      (i.turn work).store = work.store.mapGraph fun g => g.addAtoms clause.tokens) ∨
    (∃ clause queue word hook, work.queue = clause :: queue ∧
      i.vocabulary.leading? clause.tokens = some (word, hook) ∧
      (i.turn work).calls = work.calls.reverse ++ [⟨word, clause⟩] ∧
      (i.turn work).store = (hook.run clause work.store).2) := by
  cases hqueue : work.queue with
  | nil =>
      left
      simp [turn, hqueue, Turn.calls, Turn.store]
  | cons clause queue =>
      right
      cases hleading : i.vocabulary.leading? clause.tokens with
      | none =>
          left
          exact ⟨clause, queue, rfl, hleading, by simp [turn, hqueue, hleading, Turn.calls],
            by simp [turn, hqueue, hleading, Turn.store]⟩
      | some found =>
          right
          obtain ⟨word, hook⟩ := found
          refine ⟨clause, queue, word, hook, rfl, hleading, ?_⟩
          simp only [turn, hqueue, hleading]
          rcases hook.run clause work.store with ⟨result, store⟩
          cases result with
          | error error => simp [Turn.calls, Turn.store]
          | ok outcome =>
              dsimp only
              split
              · simp [Turn.calls, Turn.store]
              · split <;> simp [Turn.calls, Turn.store]

/-- After a turn the lines behind the first one are waiting, and behind them the line that a hook
has handed back, if it has. -/
theorem turn_queue {work next : Work μ} (h : i.turn work = .going next) :
    ∃ clause queue, work.queue = clause :: queue ∧
      (next.queue = queue ∨
        ∃ word hook outcome store, i.vocabulary.leading? clause.tokens = some (word, hook) ∧
          hook.run clause work.store = (.ok outcome, store) ∧
          next.queue = queue ++ [{ tokens := outcome.next }]) := by
  unfold turn at h
  split at h
  · exact nomatch h
  · next clause queue hqueue =>
      refine ⟨clause, queue, hqueue, ?_⟩
      split at h
      · injection h with h
        subst h
        exact .inl rfl
      · next word hook hleading =>
          dsimp only at h
          split at h
          · exact nomatch h
          · next outcome store hrun =>
              split at h
              · injection h with h
                subst h
                exact .inl rfl
              · split at h
                · exact nomatch h
                · injection h with h
                  subst h
                  exact .inr ⟨word, hook, outcome, store, hleading, hrun, rfl⟩

/-- Turns that end lead through work underway. -/
theorem drain_underway {turns : Nat} {work : Work μ} {verdict : Verdict μ}
    (h : i.drain turns work = some verdict) :
    ∃ now, i.Underway work now ∧ i.turn now = .ended verdict := by
  have hgeneral : ∀ (turns : Nat) (now : Work μ), i.Underway work now →
      i.drain turns now = some verdict →
        ∃ last, i.Underway work last ∧ i.turn last = .ended verdict := by
    intro turns
    induction turns with
    | zero => exact fun _ _ h => nomatch h
    | succ turns ih =>
        intro now hunder h
        simp only [drain] at h
        cases hturn : i.turn now with
        | ended v =>
            rw [hturn] at h
            injection h with h
            exact ⟨now, hunder, h ▸ hturn⟩
        | going next =>
            rw [hturn] at h
            exact ih next (.turn hunder hturn) h
  exact hgeneral turns work .refl h

/-- The end of a line is a moment of it. -/
theorem line_moment {turns : Nat} {clause : Clause} {continued : Nat} {store : Store μ}
    {verdict : Verdict μ} (h : i.line turns clause continued store = some verdict) :
    i.LineMoment clause continued store verdict.calls verdict.store := by
  obtain ⟨now, hunder, hturn⟩ := i.drain_underway h
  exact .ended hunder hturn

/-- The end of lines run one after the other is a moment of them. -/
theorem linesFrom_moment {turns : Nat} {clauses : List Clause} {sofar verdict : Verdict μ}
    (h : i.linesFrom turns clauses sofar = some verdict) :
    ∃ calls, verdict.calls = sofar.calls ++ calls ∧
      i.LinesMoment turns clauses sofar.continued sofar.store calls verdict.store := by
  induction clauses generalizing sofar with
  | nil =>
      injection h with h
      subst h
      exact ⟨[], by simp, .start _ _ _⟩
  | cons clause rest ih =>
      obtain ⟨line, hline, ⟨error, herror, rfl⟩ | ⟨herror, hrest⟩⟩ := i.linesFrom_cons_cases h
      · exact ⟨line.calls, rfl, .within (i.line_moment hline)⟩
      · obtain ⟨calls, hcalls, hmoment⟩ := ih hrest
        exact ⟨line.calls ++ calls, by rw [hcalls, Verdict.calls_after, List.append_assoc],
          .later hline herror hmoment⟩

/-- The end of a statement is a moment of it. -/
theorem statement_moment {turns : Nat} {statement : Statement} {store : Store μ}
    {verdict : Verdict μ} (h : i.statement turns statement store = some verdict) :
    i.StatementMoment turns statement store verdict.calls verdict.store := by
  unfold Interpreter.statement at h
  split at h
  · next hshape =>
      obtain ⟨calls, hcalls, hmoment⟩ := i.linesFrom_moment h
      simp only [List.nil_append] at hcalls
      subst hcalls
      exact .block hshape hmoment
  · next hshape => exact .line (by simpa using hshape) (i.line_moment h)

/-- The end of a program is a moment of it. -/
theorem program_moment {turns : Nat} {statements : List Statement} {store : Store μ}
    {report : Report μ} (h : i.program turns statements store = some report) :
    i.Moment turns statements store report.calls report.store := by
  induction statements generalizing store report with
  | nil =>
      injection h with h
      subst h
      exact .start _ _
  | cons first rest ih =>
      obtain ⟨verdict, hfirst, ⟨error, herror, rfl⟩ | ⟨herror, tail, htail, rfl⟩⟩ :=
        i.program_cons_cases h
      · exact .within (i.statement_moment hfirst)
      · exact .later hfirst herror (ih htail)

end Ends

section Keeps

/-- A property of the invocations made and of the store that nothing in a run breaks. -/
structure Keeps (P : List Call → Store μ → Prop) : Prop where
  atoms : ∀ {calls store tokens}, i.vocabulary.leading? tokens = none → P calls store →
    P calls (store.mapGraph fun g => g.addAtoms tokens)
  invoke : ∀ {calls store clause word hook},
    i.vocabulary.leading? clause.tokens = some (word, hook) → P calls store →
      P (calls ++ [⟨word, clause⟩]) (hook.run clause store).2
  box : ∀ {calls store} (tokens : List Token), P calls store → P calls (box tokens store)
  pass : ∀ {calls store} (attempted : Nat), P calls store → P calls (midPass attempted store)

variable {i} {P : List Call → Store μ → Prop} (keeps : i.Keeps P) (before : List Call)
include keeps

theorem Keeps.turn {work : Work μ} (h : P (before ++ work.calls.reverse) work.store) :
    P (before ++ (i.turn work).calls) (i.turn work).store := by
  rcases i.turn_effect work with ⟨_, hcalls, hstore⟩ |
    ⟨clause, _, _, hleading, hcalls, hstore⟩ | ⟨clause, _, word, hook, _, hleading, hcalls, hstore⟩
  · rw [hcalls, hstore]
    exact h
  · rw [hcalls, hstore]
    exact keeps.atoms hleading h
  · rw [hcalls, hstore, ← List.append_assoc]
    exact keeps.invoke hleading h

theorem Keeps.underway {start now : Work μ}
    (h : P (before ++ start.calls.reverse) start.store) (hnow : i.Underway start now) :
    P (before ++ now.calls.reverse) now.store := by
  induction hnow with
  | refl => exact h
  | turn _ hturn ih =>
      have := keeps.turn before ih
      rwa [hturn] at this

theorem Keeps.line {clause : Clause} {continued : Nat} {store now : Store μ}
    {calls : List Call} (h : P before store)
    (hmoment : i.LineMoment clause continued store calls now) : P (before ++ calls) now := by
  have hstart : P (before ++ ([] : List Call).reverse) store := by simpa using h
  cases hmoment with
  | going hunder => exact keeps.underway before hstart hunder
  | ended hunder hturn =>
      have := keeps.turn before (keeps.underway before hstart hunder)
      rwa [hturn] at this

theorem Keeps.lines {turns : Nat} {clauses : List Clause} {continued : Nat}
    {store now : Store μ} {calls : List Call} (h : P before store)
    (hmoment : i.LinesMoment turns clauses continued store calls now) :
    P (before ++ calls) now := by
  induction hmoment generalizing before with
  | start => simpa using h
  | within hline => exact keeps.line before h hline
  | later hline _ _ ih =>
      rw [← List.append_assoc]
      exact ih _ (keeps.line before h (i.line_moment hline))

theorem Keeps.statement {turns : Nat} {statement : Statement} {store now : Store μ}
    {calls : List Call} (h : P before store)
    (hmoment : i.StatementMoment turns statement store calls now) : P (before ++ calls) now := by
  cases hmoment with
  | line _ hline => exact keeps.line before h hline
  | block _ hlines => exact keeps.lines before (keeps.box _ h) hlines

theorem Keeps.complete {calls : List Call} {store : Store μ} (h : P calls store) :
    P calls (store.mapGraph fun g => g.complete.2) := by
  have := keeps.pass store.graph.passAttempts.length h
  simpa [midPass, Store.mapGraph, Graph.complete_snd] using this

/-- What nothing in a run breaks holds at every moment of it. -/
theorem Keeps.moment {turns : Nat} {statements : List Statement} {store now : Store μ}
    {calls : List Call} (h : P before store)
    (hmoment : i.Moment turns statements store calls now) : P (before ++ calls) now := by
  induction hmoment generalizing before with
  | start => simpa using h
  | within hstatement => exact keeps.statement before h hstatement
  | completing attempted hstatement _ =>
      exact keeps.pass attempted (keeps.statement before h (i.statement_moment hstatement))
  | later hstatement _ _ ih =>
      rw [← List.append_assoc]
      exact ih _ (keeps.complete (keeps.statement before h (i.statement_moment hstatement)))

end Keeps

end Interpreter
end RelationLang
