import RelationLang.Graph.Completion
import RelationLang.Program.Layout
import RelationLang.Vocabulary

/-!
# Running programs

The interpreter runs statements with the hooks of a vocabulary.

**Input.**  A vocabulary, an optional limit on continuations, statements, and a store.

**Algorithm.**  A line waits in a queue. In its turn, the hook of its leftmost reserved word is
called; the tokens that the hook hands back go to the end of the queue as a new line, without a
block, and count as one continuation of the statement. A line without reserved words stores its
tokens as concepts. A block-shaped statement is boxed and then run three words at a time. After
each statement one completion pass is made. The first error ends everything; what was done before
it stays done.

**Termination.**  A hook may hand back lines for ever, so a run is given a number of turns. It
has no answer if the turns run out, which is different from every error. With a limit of `n`
continuations `n + 2` turns are always enough.

**Results.**
* `turn_queue_length_le`: the queue never holds more than one line.
* `drain_mono`: more turns do not change an answer.
-/

namespace RelationLang

open Program Text

/-- One invocation of a hook. -/
structure Call where
  word : Token
  clause : Clause
deriving DecidableEq, Repr

/-- How a statement, or a line of one, has ended. -/
structure Verdict (μ : Type) where
  error? : Option Error
  calls : List Call
  /-- How often the hooks of the statement have continued. -/
  continued : Nat
  store : Store μ

/-- The lines of a statement that are still to be run, and what has happened so far. -/
structure Work (μ : Type) where
  /-- The waiting lines, next one first. -/
  queue : List Clause
  /-- The invocations made, latest first. -/
  calls : List Call
  /-- How often the hooks of the statement have continued. -/
  continued : Nat
  store : Store μ

/-- What a turn leads to. -/
inductive Turn (μ : Type) where
  | ended (verdict : Verdict μ)
  | going (work : Work μ)

/-- How a program has ended. -/
structure Report (μ : Type) where
  error? : Option Error
  statements : Nat
  calls : List Call
  inferred : Nat
  store : Store μ

/-- Hooks for reserved words, and how often the hooks of one statement may continue. -/
structure Interpreter (μ : Type) where
  vocabulary : Vocabulary μ
  /-- The largest number of continuations in one statement; unlimited if there is none. -/
  limit : Option Nat := none

namespace Interpreter

variable {μ : Type} (i : Interpreter μ)

/-- The error for a number of continuations, if it is above the limit. -/
def refusal? (continued : Nat) : Option Error :=
  match i.limit with
  | some limit => if limit < continued then some (.continuationLimit limit) else none
  | none => none

/-- Runs the first waiting line. -/
def turn (work : Work μ) : Turn μ :=
  match work.queue with
  | [] => .ended ⟨none, work.calls.reverse, work.continued, work.store⟩
  | clause :: queue =>
    match i.vocabulary.leading? clause.tokens with
    | none => .going { work with
        queue := queue, store := work.store.mapGraph fun g => g.addAtoms clause.tokens }
    | some (word, hook) =>
      let calls := ⟨word, clause⟩ :: work.calls
      match hook.run clause work.store with
      | (.error error, store) => .ended ⟨some error, calls.reverse, work.continued, store⟩
      | (.ok outcome, store) =>
        match outcome.next with
        | [] => .going ⟨queue, calls, work.continued, store⟩
        | tokens =>
          let continued := work.continued + 1
          match i.refusal? continued with
          | some error => .ended ⟨some error, calls.reverse, continued, store⟩
          | none => .going ⟨queue ++ [{ tokens }], calls, continued, store⟩

/-- Takes turns until the work ends; there is no answer if `turns` turns are not enough. -/
def drain : Nat → Work μ → Option (Verdict μ)
  | 0, _ => none
  | turns + 1, work =>
    match i.turn work with
    | .ended verdict => some verdict
    | .going work => drain turns work

/-- Runs one line of a statement that has already continued some number of times. -/
def line (turns : Nat) (clause : Clause) (continued : Nat) (store : Store μ) :
    Option (Verdict μ) :=
  i.drain turns ⟨[clause], [], continued, store⟩

/-- Runs lines one after the other as parts of one statement, until one fails. -/
def linesFrom (turns : Nat) : List Clause → Verdict μ → Option (Verdict μ)
  | [], sofar => some sofar
  | clause :: rest, sofar =>
    match i.line turns clause sofar.continued sofar.store with
    | none => none
    | some verdict =>
      let verdict := { verdict with calls := sofar.calls ++ verdict.calls }
      match verdict.error? with
      | some _ => some verdict
      | none => linesFrom turns rest verdict

/-- Stores the words of a block as a box whose name is their text. -/
def box (tokens : List Token) (store : Store μ) : Store μ :=
  let content := allWords tokens
  store.mapGraph fun g => g.addBox (unwords content) content

/-- Runs one statement, without the completion pass. -/
def statement (turns : Nat) (statement : Statement) (store : Store μ) : Option (Verdict μ) :=
  if blockShaped statement.tokens then
    i.linesFrom turns ((threes (allWords statement.tokens)).map fun group => { tokens := group })
      ⟨none, [], 0, box statement.tokens store⟩
  else i.line turns { tokens := statement.tokens, block := statement.block } 0 store

/-- Runs statements in order, each followed by a completion pass, until one fails. -/
def program (turns : Nat) : List Statement → Store μ → Option (Report μ)
  | [], store => some ⟨none, 0, [], 0, store⟩
  | first :: rest, store =>
    match i.statement turns first store with
    | none => none
    | some verdict =>
      match verdict.error? with
      | some error => some ⟨some error, 0, verdict.calls, 0, verdict.store⟩
      | none =>
        let (inferred, graph) := verdict.store.graph.complete
        match program turns rest { verdict.store with graph } with
        | none => none
        | some report => some { report with
            statements := 1 + report.statements
            calls := verdict.calls ++ report.calls
            inferred := inferred + report.inferred }

def source (turns : Nat) (text : String) (store : Store μ) : Option (Report μ) :=
  i.program turns (statements text) store

/-- The turns given to each line of a run: enough for every run under a limit, and otherwise as
many as a counter of 64 bits can tell apart. -/
def turns : Nat :=
  match i.limit with
  | some limit => limit + 2
  | none => UInt64.size

/-- The queue never holds more than one line. -/
theorem turn_queue_length_le {work next : Work μ} (h : work.queue.length ≤ 1)
    (hturn : i.turn work = .going next) : next.queue.length ≤ 1 := by
  unfold turn at hturn
  split at hturn
  · exact nomatch hturn
  · next clause queue hqueue =>
    have hnil : queue = [] := by simpa [hqueue] using h
    subst hnil
    split at hturn
    · injection hturn with hturn; subst hturn; simp
    · dsimp only at hturn
      split at hturn
      · exact nomatch hturn
      · split at hturn
        · injection hturn with hturn; subst hturn; simp
        · split at hturn
          · exact nomatch hturn
          · injection hturn with hturn; subst hturn; simp

/-- More turns do not change an answer. -/
theorem drain_mono {turns more : Nat} (hle : turns ≤ more) {work : Work μ} {verdict : Verdict μ}
    (h : i.drain turns work = some verdict) : i.drain more work = some verdict := by
  induction turns generalizing more work with
  | zero => exact nomatch h
  | succ turns ih =>
    obtain ⟨more, rfl⟩ : ∃ k, more = k + 1 := ⟨more - 1, by omega⟩
    simp only [drain] at h ⊢
    cases hturn : i.turn work with
    | ended v => simpa [hturn] using h
    | going next =>
      simp only [hturn] at h ⊢
      exact ih (by omega) h

end Interpreter
end RelationLang
