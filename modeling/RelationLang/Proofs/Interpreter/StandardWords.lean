import RelationLang.Proofs.Interpreter.Moment
import RelationLang.Verb

/-!
# Runs with the standard words

What the standard words do to the graph, and the runs that use no other words.

**Results.**
* `standard_invoke`: an invocation records the fact it asserts, if it asserts one, and leaves
  the graph alone otherwise.
* `StandardMoment.moment`: what nothing in a run breaks holds at every moment of every sequence
  of programs.
-/

namespace RelationLang

open Program

/-- What an invocation of a standard word asserts: the pair around the word, with its truth value.
A guard asserts nothing. -/
def Call.assertion? (call : Call) : Option SignedPair :=
  match Verb.ofWord? call.word with
  | some (.relation relation) =>
    match relation.use call.clause.tokens with
    | .assertion pair => some ⟨pair, relation.truth⟩
    | _ => none
  | _ => none

/-- What invocations assert, in order. -/
def assertions (calls : List Call) : List SignedPair := calls.filterMap Call.assertion?

theorem assertions_append (before after : List Call) :
    assertions (before ++ after) = assertions before ++ assertions after :=
  List.filterMap_append

namespace Interpreter

variable {μ : Type}

/-- The interpreter with the standard words and a limit. -/
def standard (limit : Option Nat) : Interpreter μ := ⟨.standard, limit⟩

/-- The invocations made, and the store left, by any number of programs run with the standard
words from nothing, each under a limit of its own and whether it fails or not. -/
inductive StandardRun : List Call → Store μ → Prop
  | fresh (memory : μ) : StandardRun [] (.fresh memory)
  | program {calls : List Call} {store : Store μ} {report : Report μ} (limit : Option Nat)
      (turns : Nat) (statements : List Statement) :
      StandardRun calls store →
      (standard limit).program turns statements store = some report →
      StandardRun (calls ++ report.calls) report.store

/-- The invocations made up to a moment of such programs, and the store at this moment; the last
program need not be finished. -/
inductive StandardMoment : List Call → Store μ → Prop
  | during {before calls : List Call} {store now : Store μ} (limit : Option Nat) (turns : Nat)
      (statements : List Statement) :
      StandardRun before store →
      (standard limit).Moment turns statements store calls now →
      StandardMoment (before ++ calls) now

section Words

theorem standard_hook? (limit : Option Nat) (word : Token) :
    (standard limit : Interpreter μ).vocabulary.hook? word =
      (Verb.ofWord? word).map Verb.hook :=
  Vocabulary.hook?_standardWithKinds Relation.kind word

/-- The hook of a standard word is that of the verb with the word. -/
theorem standard_leading {limit : Option Nat} {tokens : List Token} {word : Token}
    {hook : Hook μ} (h : (standard limit).vocabulary.leading? tokens = some (word, hook)) :
    ∃ verb, Verb.ofWord? word = some verb ∧ verb.hook = hook := by
  have hhook := Vocabulary.hook?_of_leading? h
  rw [standard_hook?] at hhook
  exact Option.map_eq_some_iff.mp hhook

/-- An invocation of a standard word records the fact it asserts, if it asserts one, and leaves
the graph alone otherwise. -/
theorem standard_invoke {limit : Option Nat} {clause : Clause} {word : Token} {hook : Hook μ}
    (h : (standard limit).vocabulary.leading? clause.tokens = some (word, hook))
    (store : Store μ) :
    ((Call.mk word clause).assertion? = none ∧
        (hook.run clause store).2.graph = store.graph) ∨
      ∃ fact : Fact, (Call.mk word clause).assertion? = some fact.signed ∧
        (hook.run clause store).2.graph = (store.graph.record fact).2 := by
  obtain ⟨verb, hverb, rfl⟩ := standard_leading h
  cases verb with
  | say =>
      left
      refine ⟨by simp [Call.assertion?, hverb], ?_⟩
      rcases sayHook_run_cases clause store with ⟨_, hrun⟩ | ⟨_, hrun⟩
      · exact congrArg (·.2.graph) hrun
      · exact congrArg (·.2.graph) hrun
  | relation relation =>
      rcases relation.run_cases relation.kind clause store with
        ⟨pair, rest, huse, hrun⟩ | ⟨pair, huse, hrun⟩ | ⟨huse, hrun⟩
      · left
        exact ⟨by simp [Call.assertion?, hverb, huse], congrArg (·.2.graph) hrun⟩
      · right
        exact ⟨⟨pair, relation.truth, relation.kind⟩,
          by simp [Call.assertion?, hverb, huse, Fact.signed], congrArg (·.2.graph) hrun⟩
      · left
        exact ⟨by simp [Call.assertion?, hverb, huse], congrArg (·.2.graph) hrun⟩

end Words

section Moments

variable {P : List Call → Store μ → Prop}

theorem StandardRun.keeps {calls : List Call} {store : Store μ}
    (keeps : ∀ limit, (standard limit).Keeps P) (hfresh : ∀ memory, P [] (.fresh memory))
    (h : StandardRun calls store) : P calls store := by
  induction h with
  | fresh memory => exact hfresh memory
  | program limit turns statements _ hprogram ih =>
      exact (keeps limit).moment _ ih ((standard limit).program_moment hprogram)

/-- What nothing in a run breaks holds at every moment of every sequence of programs. -/
theorem StandardMoment.keeps {calls : List Call} {store : Store μ}
    (keeps : ∀ limit, (standard limit).Keeps P) (hfresh : ∀ memory, P [] (.fresh memory))
    (h : StandardMoment calls store) : P calls store := by
  cases h with
  | during limit turns statements hrun hmoment =>
      exact (keeps limit).moment _ (hrun.keeps keeps hfresh) hmoment

theorem StandardRun.moment {calls : List Call} {store : Store μ} (h : StandardRun calls store) :
    StandardMoment calls store := by
  have := StandardMoment.during none 0 [] h (.start _ _)
  rwa [List.append_nil] at this

end Moments

end Interpreter
end RelationLang
