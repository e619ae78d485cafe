import RelationLang.Interpreter

/-!
# Runs in lockstep

**Input.**  Two interpreters with hooks for the same words, and a relation between their stores.

**Algorithm.**  Both take their turns in the same order. If all that can be done to a store in a
turn, a box or a completion pass keeps the relation, and gives the same result on both sides, the
runs differ in nothing but what the relation leaves open.

**Results.**
* `Lockstep.turn`: matching work comes to matching work, or to matching verdicts.
* `Lockstep.program`: programs run from related stores have matching reports, or both none.
-/

namespace RelationLang

open Program

section Definitions

variable {μ ν : Type} (R : Store μ → Store ν → Prop)

/-- Two hooks have the same result on related stores and keep them related. -/
def Hook.Matches (hook : Hook μ) (hook' : Hook ν) : Prop :=
  ∀ clause store store', R store store' →
    (hook.run clause store).1 = (hook'.run clause store').1 ∧
      R (hook.run clause store).2 (hook'.run clause store').2

structure Verdict.Matches (verdict : Verdict μ) (verdict' : Verdict ν) : Prop where
  error : verdict.error? = verdict'.error?
  calls : verdict.calls = verdict'.calls
  continued : verdict.continued = verdict'.continued
  store : R verdict.store verdict'.store

structure Work.Matches (work : Work μ) (work' : Work ν) : Prop where
  queue : work.queue = work'.queue
  calls : work.calls = work'.calls
  continued : work.continued = work'.continued
  store : R work.store work'.store

inductive Turn.Matches : Turn μ → Turn ν → Prop
  | ended {verdict : Verdict μ} {verdict' : Verdict ν} :
      verdict.Matches R verdict' →
      Matches (.ended verdict) (.ended verdict')
  | going {work : Work μ} {work' : Work ν} :
      work.Matches R work' →
      Matches (.going work) (.going work')

structure Report.Matches (report : Report μ) (report' : Report ν) : Prop where
  error : report.error? = report'.error?
  statements : report.statements = report'.statements
  calls : report.calls = report'.calls
  inferred : report.inferred = report'.inferred
  store : R report.store report'.store

/-- Two interpreters that keep a relation between their stores, whatever they do. -/
structure Interpreter.Lockstep (i : Interpreter μ) (j : Interpreter ν) : Prop where
  limit : i.limit = j.limit
  hooks : ∀ word,
    Option.Rel (Hook.Matches R) (i.vocabulary.hook? word) (j.vocabulary.hook? word)
  atoms : ∀ {store store'} (tokens : List Token), R store store' →
    R (store.mapGraph fun g => g.addAtoms tokens) (store'.mapGraph fun g => g.addAtoms tokens)
  box : ∀ {store store'} (tokens : List Token), R store store' →
    R (box tokens store) (box tokens store')
  complete : ∀ {store store'}, R store store' →
    store.graph.complete.1 = store'.graph.complete.1 ∧
      R (store.mapGraph fun g => g.complete.2) (store'.mapGraph fun g => g.complete.2)

end Definitions

namespace Interpreter

variable {μ ν : Type} {R : Store μ → Store ν → Prop} {i : Interpreter μ} {j : Interpreter ν}

theorem Lockstep.leading (h : i.Lockstep R j) (tokens : List Token) :
    Option.Rel (fun found found' => found.1 = found'.1 ∧ found.2.Matches R found'.2)
      (i.vocabulary.leading? tokens) (j.vocabulary.leading? tokens) := by
  induction tokens with
  | nil => exact .none
  | cons token rest ih =>
      have hhooks := h.hooks token
      simp only [Vocabulary.leading?, List.findSome?_cons]
      generalize i.vocabulary.hook? token = hook?, j.vocabulary.hook? token = hook?' at hhooks ⊢
      cases hhooks with
      | none => exact ih
      | some hmatches => exact .some ⟨rfl, hmatches⟩

theorem Lockstep.refusal? (h : i.Lockstep R j) (continued : Nat) :
    i.refusal? continued = j.refusal? continued := by
  rw [Interpreter.refusal?, h.limit, ← Interpreter.refusal?]

/-- Matching work comes to matching work, or to matching verdicts. -/
theorem Lockstep.turn (h : i.Lockstep R j) {work : Work μ} {work' : Work ν}
    (hwork : work.Matches R work') : (i.turn work).Matches R (j.turn work') := by
  obtain ⟨queue, calls, continued, store⟩ := work
  obtain ⟨_, _, _, store'⟩ := work'
  obtain ⟨rfl, rfl, rfl, hstore⟩ := hwork
  cases queue with
  | nil => exact .ended ⟨rfl, rfl, rfl, hstore⟩
  | cons clause queue =>
      have hleading := h.leading clause.tokens
      simp only [Interpreter.turn, ← h.refusal?]
      generalize i.vocabulary.leading? clause.tokens = found?,
        j.vocabulary.leading? clause.tokens = found?' at hleading ⊢
      cases hleading with
      | none => exact .going ⟨rfl, rfl, rfl, h.atoms clause.tokens hstore⟩
      | @some found found' hfound =>
          obtain ⟨word, hook⟩ := found
          obtain ⟨_, hook'⟩ := found'
          obtain ⟨rfl, hmatches⟩ := hfound
          have hrun := hmatches clause store store' hstore
          dsimp only at hrun ⊢
          generalize hook.run clause store = now, hook'.run clause store' = now' at hrun ⊢
          obtain ⟨result, after⟩ := now
          obtain ⟨result', after'⟩ := now'
          obtain ⟨rfl, hafter⟩ : result = result' ∧ R after after' := hrun
          cases result with
          | error error => exact .ended ⟨rfl, rfl, rfl, hafter⟩
          | ok outcome =>
              dsimp only
              cases outcome.next with
              | nil => exact .going ⟨rfl, rfl, rfl, hafter⟩
              | cons first rest =>
                  cases i.refusal? (continued + 1) with
                  | some error => exact .ended ⟨rfl, rfl, rfl, hafter⟩
                  | none => exact .going ⟨rfl, rfl, rfl, hafter⟩

theorem Lockstep.drain (h : i.Lockstep R j) (turns : Nat) {work : Work μ} {work' : Work ν}
    (hwork : work.Matches R work') :
    Option.Rel (Verdict.Matches R) (i.drain turns work) (j.drain turns work') := by
  induction turns generalizing work work' with
  | zero => exact .none
  | succ turns ih =>
      have hturn := h.turn hwork
      simp only [Interpreter.drain]
      generalize i.turn work = now, j.turn work' = now' at hturn ⊢
      cases hturn with
      | ended hverdict => exact .some hverdict
      | going hnext => exact ih hnext

theorem Lockstep.line (h : i.Lockstep R j) (turns : Nat) (clause : Clause) (continued : Nat)
    {store : Store μ} {store' : Store ν} (hstore : R store store') :
    Option.Rel (Verdict.Matches R) (i.line turns clause continued store)
      (j.line turns clause continued store') :=
  h.drain turns ⟨rfl, rfl, rfl, hstore⟩

theorem Lockstep.linesFrom (h : i.Lockstep R j) (turns : Nat) (clauses : List Clause)
    {sofar : Verdict μ} {sofar' : Verdict ν} (hsofar : sofar.Matches R sofar') :
    Option.Rel (Verdict.Matches R) (i.linesFrom turns clauses sofar)
      (j.linesFrom turns clauses sofar') := by
  induction clauses generalizing sofar sofar' with
  | nil => exact .some hsofar
  | cons clause rest ih =>
      have hline := h.line turns clause sofar.continued hsofar.store
      simp only [Interpreter.linesFrom, ← hsofar.continued, ← hsofar.calls]
      generalize i.line turns clause sofar.continued sofar.store = line?,
        j.line turns clause sofar.continued sofar'.store = line?' at hline ⊢
      cases hline with
      | none => exact .none
      | @some line line' hline =>
          obtain ⟨error?, calls, continued, store⟩ := line
          obtain ⟨_, _, _, store'⟩ := line'
          obtain ⟨rfl, rfl, rfl, hstore⟩ := hline
          cases error? with
          | some error => exact .some ⟨rfl, rfl, rfl, hstore⟩
          | none => exact ih ⟨rfl, rfl, rfl, hstore⟩

theorem Lockstep.statement (h : i.Lockstep R j) (turns : Nat) (s : Statement) {store : Store μ}
    {store' : Store ν} (hstore : R store store') :
    Option.Rel (Verdict.Matches R) (i.statement turns s store) (j.statement turns s store') := by
  unfold Interpreter.statement
  split
  · exact h.linesFrom turns _ ⟨rfl, rfl, rfl, h.box s.tokens hstore⟩
  · exact h.line turns _ 0 hstore

/-- Programs run from related stores have matching reports, or both none. -/
theorem Lockstep.program (h : i.Lockstep R j) (turns : Nat) (statements : List Statement)
    {store : Store μ} {store' : Store ν} (hstore : R store store') :
    Option.Rel (Report.Matches R) (i.program turns statements store)
      (j.program turns statements store') := by
  induction statements generalizing store store' with
  | nil => exact .some ⟨rfl, rfl, rfl, rfl, hstore⟩
  | cons first rest ih =>
      have hfirst := h.statement turns first hstore
      simp only [Interpreter.program]
      generalize i.statement turns first store = first?,
        j.statement turns first store' = first?' at hfirst ⊢
      cases hfirst with
      | none => exact .none
      | @some verdict verdict' hverdict =>
          obtain ⟨error?, calls, continued, store⟩ := verdict
          obtain ⟨_, _, _, store'⟩ := verdict'
          obtain ⟨rfl, rfl, rfl, hstore⟩ := hverdict
          cases error? with
          | some error => exact .some ⟨rfl, rfl, rfl, rfl, hstore⟩
          | none =>
              obtain ⟨hinferred, hcomplete⟩ := h.complete hstore
              have hrest := ih hcomplete
              simp only [Store.mapGraph] at hrest
              dsimp only
              generalize i.program turns rest _ = rest?, j.program turns rest _ = rest?' at hrest ⊢
              cases hrest with
              | none => exact .none
              | @some report report' hreport =>
                  refine .some ⟨hreport.error, ?_, ?_, ?_, hreport.store⟩
                  · rw [hreport.statements]
                  · rw [hreport.calls]
                  · rw [hinferred, hreport.inferred]

end Interpreter
end RelationLang
