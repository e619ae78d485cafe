import RelationLang.Plugin
import RelationLang.Proofs.Interpreter.Ending
import RelationLang.Proofs.Interpreter.Sequence
import RelationLang.Proofs.Program.Groups
import RelationLang.Verb

/-!
# Blocks as lines run one by one

**Input.**  A block-shaped statement whose lines are made of whole groups of three words, and an
interpreter without a limit.

**Algorithm.**  The interpreter boxes all words of the block and runs them three at a time, counting
the continuations of all groups together. Without a limit nothing depends on the count, so that each
group runs as on its own; and as the groups do not cross the ends of lines, the groups of a line run
before those of the next, until one of them fails.

**Results.**
* `line_later`: without a limit a line does not depend on earlier continuations.
* `statement_eq_inTurn`: the groups of a block run as lines on their own.
* `blocks_run_by_line`: the words of a block, its groups, and how it is run line by line.
-/

namespace RelationLang

open Program Text

section Definitions

variable {μ : Type}

/-- The same work in a statement that has continued before. -/
def Work.later (earlier : Nat) (work : Work μ) : Work μ :=
  { work with continued := earlier + work.continued }

/-- The same verdict in a statement that has continued before. -/
def Verdict.later (earlier : Nat) (verdict : Verdict μ) : Verdict μ :=
  { verdict with continued := earlier + verdict.continued }

def Turn.later (earlier : Nat) : Turn μ → Turn μ
  | .ended verdict => .ended (verdict.later earlier)
  | .going work => .going (work.later earlier)

end Definitions

namespace Interpreter

variable {μ : Type} {i : Interpreter μ}

section Unlimited

/-- Without a limit a turn does not depend on earlier continuations. -/
theorem turn_later (hlimit : i.limit = none) (earlier : Nat) (work : Work μ) :
    i.turn (work.later earlier) = (i.turn work).later earlier := by
  obtain ⟨queue, calls, continued, store⟩ := work
  -- The count is read only to refuse a continuation, which takes a limit.
  have hrefusal : ∀ n, i.refusal? n = none := fun n => by rw [refusal?, hlimit]
  cases queue with
  | nil => rfl
  | cons clause queue =>
      simp only [Work.later, turn, hrefusal]
      cases i.vocabulary.leading? clause.tokens with
      | none => rfl
      | some found =>
          obtain ⟨word, hook⟩ := found
          dsimp only
          rcases hook.run clause store with ⟨_ | outcome, after⟩
          · rfl
          · dsimp only
            cases outcome.next with
            | nil => rfl
            | cons first rest => rfl

/-- Without a limit a line does not depend on earlier continuations. -/
theorem line_later (hlimit : i.limit = none) (turns : Nat) (clause : Clause) (earlier : Nat)
    (store : Store μ) :
    i.line turns clause earlier store =
      (i.line turns clause 0 store).map (·.later earlier) := by
  have hdrain : ∀ work : Work μ,
      i.drain turns (work.later earlier) = (i.drain turns work).map (·.later earlier) := by
    induction turns with
    | zero => exact fun _ => rfl
    | succ turns ih =>
        intro work
        rw [drain, drain, turn_later hlimit]
        cases i.turn work with
        | ended verdict => rfl
        | going next => exact ih next
  exact hdrain ⟨[clause], [], 0, store⟩

/-- Without a limit the lines of a statement run as on their own. -/
theorem linesFrom_eq_inTurn (hlimit : i.limit = none) (turns : Nat) (clauses : List Clause)
    {sofar : Verdict μ} (hsofar : sofar.error? = none) :
    i.linesFrom turns clauses sofar =
      (inTurn (fun clause => i.line turns clause 0) clauses sofar.store).map sofar.andThen := by
  -- The induction is on the lines; what they add to is what the lines before have come to.
  induction clauses generalizing sofar with
  | nil =>
      obtain ⟨error?, calls, continued, store⟩ := sofar
      obtain rfl : error? = none := hsofar
      simp [linesFrom, inTurn, Verdict.andThen, Verdict.start]
  | cons clause rest ih =>
      rw [linesFrom_cons, line_later hlimit, inTurn]
      cases i.line turns clause 0 sofar.store with
      | none => rfl
      | some verdict =>
          have hjoined : (verdict.later sofar.continued).after sofar.calls =
            sofar.andThen verdict := rfl
          have hlater : (verdict.later sofar.continued).error? = verdict.error? := rfl
          simp only [Option.map_some, Option.bind_some, hjoined, hlater]
          cases herror : verdict.error? with
          | some error => rw [Verdict.proceed, goOn_of_error herror, Option.map_some]
          | none =>
              have hsucceeds : (sofar.andThen verdict).error? = none := herror
              rw [Verdict.proceed, goOn_of_success herror, Option.map_map, ih hsucceeds]
              have hassoc := Verdict.joinsEnds_andThen.assoc sofar verdict
              exact congrArg (Option.map · _) (funext hassoc)

/-- Without a limit a block is boxed, and then its groups run as lines on their own. -/
theorem statement_eq_inTurn (hlimit : i.limit = none) (turns : Nat) {s : Statement}
    (hshape : blockShaped s.tokens = true) (store : Store μ) :
    i.statement turns s store =
      inTurn (fun group => i.line turns { tokens := group } 0) (threes (allWords s.tokens))
        (box s.tokens store) := by
  rw [statement, if_pos hshape, linesFrom_eq_inTurn hlimit turns _ rfl, inTurn_map]
  exact Verdict.map_start_andThen _ _

end Unlimited

section Blocks

/-- The words of tokens, which may be any texts, are those of their joined text; they do not fall
apart any further, and the words of two parts are the words of the first, then of the second. If the
words of every token can be divided by three, then the groups of all words are the groups of each
token in turn, and no word is dropped. So without a limit the words of such a block are stored as a
box whose name is their joined text, and then its lines are run one after the other, each three
words at a time, until one of these groups fails. -/
theorem blocks_run_by_line :
    (∀ tokens, allWords tokens = words (unwords tokens) ∧
      allWords (allWords tokens) = allWords tokens) ∧
    (∀ before after, allWords (before ++ after) = allWords before ++ allWords after) ∧
    (∀ tokens, (∀ token ∈ tokens, 3 ∣ (allWords [token]).length) →
      threes (allWords tokens) = tokens.flatMap (fun token => threes (allWords [token])) ∧
        (threes (allWords tokens)).flatten = allWords tokens) ∧
    ∀ {μ : Type} (i : Interpreter μ) (turns : Nat) (s : Statement) (store : Store μ),
      i.limit = none → blockShaped s.tokens = true →
        (∀ token ∈ s.tokens, 3 ∣ (allWords [token]).length) →
          ∃ boxed, store.Boxes s.tokens boxed ∧
            i.statement turns s store =
              inTurn
                (fun token => inTurn (fun group => i.line turns { tokens := group } 0)
                  (threes (allWords [token])))
                s.tokens boxed := by
  refine ⟨fun tokens => ⟨(words_unwords_eq tokens).symm, allWords_allWords tokens⟩,
    allWords_append, fun tokens hwhole => ⟨threes_allWords hwhole, ?_⟩, ?_⟩
  · exact flatten_threes_of_dvd (dvd_length_allWords hwhole)
  · intro μ i turns s store hlimit hshape hwhole
    refine ⟨box s.tokens store, Store.boxes_iff.mpr rfl, ?_⟩
    rw [statement_eq_inTurn hlimit turns hshape, threes_allWords hwhole, inTurn_flatMap]

/-- A block of four lines. The first has two groups, of which one continues twice, the second is
uneven in its spaces, the third misuses its verb, and the fourth is not run. -/
theorem third_line_misuses_verb :
    let i : Interpreter Unit := ⟨Vocabulary.standard.add (Plugin.droppingLast "more"), none⟩
    let s : Statement :=
      { tokens := ["more a b cat is animal", " more  c d ", "x y is", "plant isnt animal"]
        kind := .block }
    blockShaped s.tokens = true ∧ (∀ token ∈ s.tokens, 3 ∣ (allWords [token]).length) ∧
      allWords ["", " a  b", "c "] = words (unwords ["", " a  b", "c "]) ∧
      threes (allWords s.tokens) = s.tokens.flatMap (fun token => threes (allWords [token])) ∧
      ∃ boxed verdict, (Store.fresh ()).Boxes s.tokens boxed ∧
        boxed.graph.concepts =
          [.boxed "more a b cat is animal more c d x y is plant isnt animal"
            ["more", "a", "b", "cat", "is", "animal", "more", "c", "d", "x", "y", "is", "plant",
              "isnt", "animal"]] ∧
        i.statement 4 s (.fresh ()) = some verdict ∧
        verdict.error? = some Relation.is.usage ∧ verdict.calls.length = 8 ∧
        verdict.continued = 4 ∧ verdict.store.graph.facts.length = 1 ∧
        inTurn
            (fun token => inTurn (fun group => i.line 4 { tokens := group } 0)
              (threes (allWords [token])))
            s.tokens boxed =
          some verdict := by
  intro i s
  obtain ⟨hwords, _, hgroups, hruns⟩ := blocks_run_by_line
  have hshape : blockShaped s.tokens = true := by decide
  have hwhole : ∀ token ∈ s.tokens, 3 ∣ (allWords [token]).length := by decide
  obtain ⟨boxed, hboxed, hrun⟩ := hruns i 4 s (.fresh ()) rfl hshape hwhole
  obtain ⟨verdict, hverdict, hdecided⟩ := (Option.any_eq_true _ _).mp (show
    (i.statement 4 s (.fresh ())).any (fun verdict => decide
      (verdict.error? = some Relation.is.usage ∧ verdict.calls.length = 8 ∧
        verdict.continued = 4 ∧ verdict.store.graph.facts.length = 1)) = true by decide)
  obtain ⟨herror, hcalls, hcontinued, hfacts⟩ := of_decide_eq_true hdecided
  exact ⟨hshape, hwhole, (hwords _).1, (hgroups _ hwhole).1, boxed, verdict, hboxed,
    hboxed.graph.concepts.trans (by decide), hverdict, herror, hcalls, hcontinued, hfacts,
    hrun.symm.trans hverdict⟩

end Blocks

end Interpreter

end RelationLang
