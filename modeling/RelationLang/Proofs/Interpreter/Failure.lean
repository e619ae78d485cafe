import RelationLang.Proofs.Interpreter.Ending
import RelationLang.Proofs.Interpreter.StandardWords

/-!
# What a failing program leaves

**Input.**  Statements run with the standard words, of which one fails.

**Algorithm.**  Every standard word checks its line before it changes anything, and a word that
hands back a line has changed nothing. So a line that fails, in its first invocation or in a later
one, or by the limit, leaves the store as it was.

**Results.**
* `exists_failsInLine`, `exists_failsIn`: what fails has a first failing line or statement, and ends
  as this one ends.
* `standard_line_fails`: a failing line of standard words leaves the store as it was.
* `failure_leaves_prefix`: a failing program leaves what the statements before the failing one have
  left, with the box and the succeeding lines of the failing one if it is block-shaped.
-/

namespace RelationLang

open Program

section Definitions

variable {μ : Type}

/-- A hook changes the store only when it ends the line without an error. -/
def Hook.Checks (hook : Hook μ) : Prop :=
  ∀ clause store, (hook.run clause store).2 = store ∨ (hook.run clause store).1 = .ok .done

namespace Interpreter

variable (i : Interpreter μ) (turns : Nat)

/-- Lines fail in the line `failing`, which ends with `last`, after lines that succeed and come to
`done`. -/
structure FailsInLine (clauses : List Clause) (sofar verdict : Verdict μ) (before : List Clause)
    (failing : Clause) (after : List Clause) (done last : Verdict μ) : Prop where
  order : clauses = before ++ failing :: after
  before_ends : i.linesFrom turns before sofar = some done
  before_succeeds : done.error? = none
  failing_ends : i.line turns failing done.continued done.store = some last
  error : last.error? = verdict.error?
  store : verdict.store = last.store

/-- A program fails in the statement `failing`, which ends with `last`, after statements that
succeed and come to `done`. -/
structure FailsIn (statements : List Statement) (store : Store μ) (report : Report μ)
    (before : List Statement) (failing : Statement) (after : List Statement) (done : Report μ)
    (last : Verdict μ) : Prop where
  order : statements = before ++ failing :: after
  count : report.statements = before.length
  before_ends : i.program turns before store = some done
  before_succeeds : done.error? = none
  failing_ends : i.statement turns failing done.store = some last
  error : last.error? = report.error?
  store : report.store = last.store

end Interpreter

end Definitions

namespace Interpreter

section Failing

variable {μ : Type} {i : Interpreter μ} {turns : Nat}

/-- Lines that fail have a first failing line. -/
theorem exists_failsInLine {clauses : List Clause} {sofar verdict : Verdict μ} {error : Error}
    (h : i.linesFrom turns clauses sofar = some verdict) (hsofar : sofar.error? = none)
    (herror : verdict.error? = some error) :
    ∃ before failing after done last,
      i.FailsInLine turns clauses sofar verdict before failing after done last := by
  induction clauses generalizing sofar with
  | nil =>
      injection h with h
      simp [← h, hsofar] at herror
  | cons clause rest ih =>
      obtain ⟨line, hline, ⟨found, hends, rfl⟩ | ⟨hends, hrest⟩⟩ := i.linesFrom_cons_cases h
      · exact ⟨[], clause, rest, sofar, line, rfl, rfl, hsofar, hline, rfl, rfl⟩
      · obtain ⟨before, failing, after, done, last, hfails⟩ := ih hrest hends
        refine ⟨clause :: before, failing, after, done, last, { hfails with
          order := by rw [hfails.order, List.cons_append]
          before_ends := ?_ }⟩
        rw [linesFrom_cons, hline, Option.bind_some, hends]
        exact hfails.before_ends

/-- A program that fails has a first failing statement. -/
theorem exists_failsIn {statements : List Statement} {store : Store μ} {report : Report μ}
    {error : Error} (h : i.program turns statements store = some report)
    (herror : report.error? = some error) :
    ∃ before failing after done last,
      i.FailsIn turns statements store report before failing after done last := by
  induction statements generalizing store report with
  | nil =>
      injection h with h
      simp [← h] at herror
  | cons first rest ih =>
      obtain ⟨verdict, hfirst, ⟨found, hends, rfl⟩ | ⟨hends, tail, htail, rfl⟩⟩ :=
        i.program_cons_cases h
      · exact ⟨[], first, rest, _, verdict, rfl, rfl, rfl, rfl, hfirst, hends, rfl⟩
      · obtain ⟨before, failing, after, done, last, hfails⟩ := ih htail herror
        refine ⟨first :: before, failing, after,
          { done with
            statements := 1 + done.statements
            calls := verdict.calls ++ done.calls
            inferred := verdict.store.graph.complete.1 + done.inferred },
          last, { hfails with order := ?_, count := ?_, before_ends := ?_ }⟩
        · rw [hfails.order, List.cons_append]
        · simp [hfails.count, Nat.add_comm]
        · have hrest := hfails.before_ends
          simp only [Store.mapGraph] at hrest
          simp only [program, hfirst, hends, hrest]

end Failing

section Standard

variable {μ : Type}

theorem checks_hookWithKind (relation : Relation) (kind : FactKind) :
    (relation.hookWithKind kind : Hook μ).Checks := by
  intro clause store
  rcases relation.run_cases kind clause store with ⟨_, _, _, hrun⟩ | ⟨_, _, hrun⟩ | ⟨_, hrun⟩
  · exact .inl (by rw [hrun])
  · exact .inr (by rw [hrun])
  · exact .inl (by rw [hrun])

theorem checks_sayHook : (sayHook : Hook μ).Checks := by
  intro clause store
  rcases sayHook_run_cases clause store with ⟨_, hrun⟩ | ⟨_, hrun⟩
  · exact .inl (by rw [hrun])
  · exact .inr (by rw [hrun])

/-- Every standard word checks its line before it changes anything. -/
theorem standard_checks {limit : Option Nat} {tokens : List Token} {word : Token} {hook : Hook μ}
    (h : (standard limit).vocabulary.leading? tokens = some (word, hook)) : hook.Checks := by
  obtain ⟨verb, _, rfl⟩ := standard_leading h
  cases verb with
  | relation relation => exact checks_hookWithKind relation _
  | say => exact checks_sayHook

/-- What does not end the line leaves the store as it was. -/
theorem standard_store_of_run {limit : Option Nat} {clause : Clause} {word : Token}
    {hook : Hook μ} {store after : Store μ} {result : Except Error Outcome}
    (hleading : (standard limit).vocabulary.leading? clause.tokens = some (word, hook))
    (hrun : hook.run clause store = (result, after)) (hresult : result ≠ .ok .done) :
    after = store := by
  rcases standard_checks hleading clause store with hkept | hdone
  · rw [← hkept, hrun]
  · rw [hrun] at hdone
    exact absurd hdone hresult

/-- A word that hands back a line has changed nothing. -/
theorem standard_store_of_next {limit : Option Nat} {clause : Clause} {word first : Token}
    {rest : List Token} {hook : Hook μ} {store after : Store μ} {outcome : Outcome}
    (hleading : (standard limit).vocabulary.leading? clause.tokens = some (word, hook))
    (hrun : hook.run clause store = (.ok outcome, after)) (hnext : outcome.next = first :: rest) :
    after = store := by
  refine standard_store_of_run hleading hrun fun hdone => ?_
  cases hdone
  exact nomatch hnext

/-- A failing line of standard words leaves the store as it was, whichever invocation fails, and
also if the limit has ended it. -/
theorem standard_line_fails {limit : Option Nat} {clause : Clause} {continued : Nat}
    {store : Store μ} {verdict : Verdict μ} {error : Error}
    (h : (standard limit).LineEnds clause continued store verdict)
    (herror : verdict.error? = some error) : verdict.store = store := by
  induction h with
  | atoms => exact nomatch herror
  | failed hleading hrun => exact standard_store_of_run hleading hrun nofun
  | done => exact nomatch herror
  | refused hleading hrun hnext => exact standard_store_of_next hleading hrun hnext
  | continued hleading hrun hnext _ _ ih =>
      exact (ih herror).trans (standard_store_of_next hleading hrun hnext)

/-- A failing program leaves what the statements before the failing one have left. If the failing
one is block-shaped, its words are boxed and the effects of its lines before the failing one are
added to the box, without a completion pass; nothing else of it is left, and nothing of a later
statement. -/
theorem failure_leaves_prefix {limit : Option Nat} {turns : Nat} {statements : List Statement}
    {store : Store μ} {report : Report μ} {error : Error}
    (h : (standard limit).program turns statements store = some report)
    (herror : report.error? = some error) :
    ∃ before failing after done last,
      (standard limit).FailsIn turns statements store report before failing after done last ∧
        (blockShaped failing.tokens = false → report.store = done.store) ∧
        (blockShaped failing.tokens = true → ∃ boxed first group later sofar line,
          done.store.Boxes failing.tokens boxed ∧
            (standard limit).FailsInLine turns failing.clauses ⟨none, [], 0, boxed⟩ last first
              group later sofar line ∧
            report.store = sofar.store) := by
  obtain ⟨before, failing, after, done, last, hfails⟩ := exists_failsIn h herror
  have hlast := hfails.error.trans herror
  refine ⟨before, failing, after, done, last, hfails, fun hshape => ?_, fun hshape => ?_⟩
  · have hends := hfails.failing_ends
    simp only [Interpreter.statement, hshape, Bool.false_eq_true, if_false] at hends
    exact hfails.store.trans (standard_line_fails ((line_iff _).mp ⟨turns, hends⟩) hlast)
  · have hends := hfails.failing_ends
    rw [statement_eq_linesFrom] at hends
    obtain ⟨first, group, later, sofar, line, hline⟩ := exists_failsInLine hends rfl hlast
    -- The failing line has changed nothing.
    have hkept := standard_line_fails ((line_iff _).mp ⟨turns, hline.failing_ends⟩)
      (hline.error.trans hlast)
    exact ⟨opened failing done.store, first, group, later, sofar, line,
      boxes_opened hshape done.store, hline, hfails.store.trans (hline.store.trans hkept)⟩

/-- A block that fails in its second line, after a statement that records a fact. What is left is
this fact, the box, and the fact of the first line, and nothing is inferred from them. -/
theorem block_fails_in_second_line :
    let block : Statement :=
      { tokens := ["animal isnt plant", "cat pet is", "tree is plant"], kind := .block }
    let words := ["animal", "isnt", "plant", "cat", "pet", "is", "tree", "is", "plant"]
    ∃ (report done : Report Unit) (last : Verdict Unit) (after : List Statement),
      (standard none).FailsIn 3 [.plain ["cat", "is", "animal"], block, .plain ["say", "done"]]
          (.fresh ()) report [.plain ["cat", "is", "animal"]] block after done last ∧
        (∃ boxed first group later sofar line,
          done.store.Boxes block.tokens boxed ∧
            (standard none).FailsInLine 3 block.clauses ⟨none, [], 0, boxed⟩ last first group later
              sofar line ∧
            report.store = sofar.store) ∧
        report.error? = some Relation.is.usage ∧
        report.store.graph.concepts = [.atom "cat", .atom "animal",
          .boxed "animal isnt plant cat pet is tree is plant" words, .atom "plant"] ∧
        report.store.graph.facts.map Fact.signed =
          [⟨⟨"cat", "animal"⟩, true⟩, ⟨⟨"animal", "plant"⟩, false⟩] := by
  intro block words
  obtain ⟨report, hreport, hdecided⟩ := (Option.any_eq_true _ _).mp (show
    ((standard none).program 3 [.plain ["cat", "is", "animal"], block, .plain ["say", "done"]]
      (.fresh ())).any (fun r : Report Unit => decide
        (r.statements = 1 ∧ r.error? = some Relation.is.usage ∧
          r.store.graph.concepts = [.atom "cat", .atom "animal",
            .boxed "animal isnt plant cat pet is tree is plant" words, .atom "plant"] ∧
          r.store.graph.facts.map Fact.signed =
            [⟨⟨"cat", "animal"⟩, true⟩, ⟨⟨"animal", "plant"⟩, false⟩])) = true by decide)
  obtain ⟨hcount, herror, hconcepts, hfacts⟩ := of_decide_eq_true hdecided
  obtain ⟨before, failing, after, done, last, hfails, _, hblock⟩ :=
    failure_leaves_prefix hreport herror
  obtain ⟨first, rfl⟩ := List.length_eq_one_iff.mp (hfails.count.symm.trans hcount)
  obtain ⟨rfl, rfl, rfl⟩ : .plain ["cat", "is", "animal"] = first ∧ block = failing ∧
      [.plain ["say", "done"]] = after := by simpa using hfails.order
  exact ⟨report, done, last, _, hfails, hblock (by decide), herror, hconcepts, hfacts⟩

end Standard

end Interpreter
end RelationLang
