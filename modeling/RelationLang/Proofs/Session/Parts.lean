import RelationLang.Proofs.Interpreter.Sequence
import RelationLang.Proofs.Program.Outline
import RelationLang.Session

/-!
# Programs compiled in parts

**Input.**  Two texts, of which the second begins with an unindented line.

**Algorithm.**  The first text is compiled; if it succeeds, the second one is compiled with what
the first has left. Their reports are joined: the counts are added, the invocations are strung
together, and the error and the store are those of the second.

**Results.**
* `program_append`: statements run in two parts have the joined report.
* `compile_in_parts`: compiling two texts at once comes to the same as compiling one after the
  other, whether or not they succeed.
-/

namespace RelationLang

open Program

section Definitions

variable {μ : Type}

/-- The report of a program that has succeeded, and of another one run after it. -/
def Report.andThen (first second : Report μ) : Report μ where
  error? := second.error?
  statements := first.statements + second.statements
  calls := first.calls ++ second.calls
  inferred := first.inferred + second.inferred
  store := second.store

/-- Goes on with another program, unless the first one has failed. -/
def Report.proceed (first : Report μ) (next : Store μ → Option (Report μ)) : Option (Report μ) :=
  match first.error? with
  | some _ => some first
  | none => (next first.store).map first.andThen

/-- The report of a program in a session. -/
def Session.report (session : Session μ) (text : String) : Option (Report μ) :=
  session.interpreter.source session.interpreter.turns text session.store

/-- What a session answers when a program has been run, and the session it becomes. -/
def Session.answer (session : Session μ) (report : Report μ) :
    Except Error String × Session μ :=
  let session := { session with store := report.store }
  match report.error? with
  | some error => (.error error, session)
  | none => (.ok session.output, session)

/-- Compiles a text and, if it succeeds, another one. -/
def Session.compileInParts (session : Session μ) (a b : String) :
    Option (Except Error String × Session μ) :=
  (session.compile a).bind fun (answer, session) =>
    match answer with
    | .error error => some (.error error, session)
    | .ok _ => session.compile b

end Definitions

section Reports

variable {μ : Type}

theorem Report.proceed_of_error {first : Report μ} {error : Error} (h : first.error? = some error)
    (next : Store μ → Option (Report μ)) : first.proceed next = some first := by
  simp [proceed, h]

theorem Report.proceed_of_success {first : Report μ} (h : first.error? = none)
    (next : Store μ → Option (Report μ)) :
    first.proceed next = (next first.store).map first.andThen := by
  simp [proceed, h]

theorem Report.joinsEnds_andThen :
    JoinsEnds Report.error? (Report.store : Report μ → Store μ) Report.andThen where
  error _ _ := rfl
  store _ _ := rfl
  assoc _ _ _ := by simp [andThen, Nat.add_assoc]

/-- Three programs in a row can be joined from either side. -/
theorem Report.proceed_bind (first : Report μ) (second third : Store μ → Option (Report μ)) :
    (first.proceed second).bind (·.proceed third) =
      first.proceed fun store => (second store).bind (·.proceed third) :=
  goOn_bind Report.joinsEnds_andThen first second third

end Reports

namespace Interpreter

variable {μ : Type} (i : Interpreter μ)

/-- The report of a statement is joined to that of the statements after it. -/
theorem program_cons (turns : Nat) (first : Statement) (rest : List Statement) (store : Store μ) :
    i.program turns (first :: rest) store =
      (i.program turns [first] store).bind (·.proceed (i.program turns rest)) := by
  simp only [program]
  cases i.statement turns first store with
  | none => rfl
  | some verdict =>
      cases herror : verdict.error? with
      | some error => simp [herror, Report.proceed]
      | none =>
          simp only [herror, Option.bind_some, Report.proceed]
          split <;> simp_all [Report.andThen]

/-- Statements run in two parts have the joined report. -/
theorem program_append (turns : Nat) (as bs : List Statement) (store : Store μ) :
    i.program turns (as ++ bs) store =
      (i.program turns as store).bind (·.proceed (i.program turns bs)) := by
  induction as generalizing store with
  | nil =>
      simp only [List.nil_append, program, Option.bind_some, Report.proceed]
      cases i.program turns bs store <;> simp [Report.andThen]
  | cons first rest ih =>
      rw [List.cons_append, program_cons, i.program_cons turns first rest, Option.bind_assoc]
      congr 1
      funext report
      rw [Report.proceed_bind]
      exact congrArg report.proceed (funext ih)

theorem source_append_of_flush (turns : Nat) (a : String) {b : String} (h : Flush b)
    (store : Store μ) :
    i.source turns (a ++ "\n" ++ b) store =
      (i.source turns a store).bind (·.proceed (i.source turns b)) := by
  rw [source, statements_append_of_flush a h, program_append]
  rfl

end Interpreter

namespace Session

variable {μ : Type} (session : Session μ)

theorem compile_eq (text : String) :
    session.compile text = (session.report text).map session.answer := by
  rw [compile, run, Option.map_map]
  rfl

theorem answer_of_error {report : Report μ} {error : Error} (h : report.error? = some error) :
    session.answer report = (.error error, { session with store := report.store }) := by
  simp [answer, h]

theorem answer_of_success {report : Report μ} (h : report.error? = none) :
    session.answer report =
      (.ok { session with store := report.store }.output,
        { session with store := report.store }) := by
  simp [answer, h]

theorem compile_append_of_flush (a : String) {b : String} (h : Flush b) :
    session.compile (a ++ "\n" ++ b) = session.compileInParts a b := by
  rw [compileInParts, compile_eq, compile_eq, report,
    Interpreter.source_append_of_flush _ _ a h, ← report]
  cases session.report a with
  | none => rfl
  | some first =>
      simp only [Option.bind_some, Option.map_some]
      cases hfirst : first.error? with
      | some error =>
          rw [Report.proceed_of_error hfirst, session.answer_of_error hfirst, Option.map_some,
            session.answer_of_error hfirst]
      | none =>
          -- The session between the parts has the interpreter of the first one.
          rw [Report.proceed_of_success hfirst, session.answer_of_success hfirst, compile_eq,
            Option.map_map]
          rfl

end Session

/-- If the second part of a text begins with an unindented line, or has no lines, the statements of
the text are those of its parts. A run of the text has the report of a run of the first part that
goes on with the second one unless the first fails: the same error, invocations, counts and store,
whatever the hooks, the limit, the number of turns and the store before. So a session answers
the same, and becomes the same, as if it compiled one part after the other. -/
theorem compile_in_parts {a b : String} (h : Flush b) :
    statements (a ++ "\n" ++ b) = statements a ++ statements b ∧
      (∀ {μ : Type} (i : Interpreter μ) (turns : Nat) (store : Store μ),
        i.source turns (a ++ "\n" ++ b) store =
          (i.source turns a store).bind (·.proceed (i.source turns b))) ∧
      ∀ {μ : Type} (session : Session μ),
        session.compile (a ++ "\n" ++ b) = session.compileInParts a b :=
  ⟨statements_append_of_flush a h, fun i turns => i.source_append_of_flush turns a h,
    fun session => session.compile_append_of_flush a h⟩

/-- A first part that ends in a block, and a second one that begins with a blank line and fails in
its second statement. -/
theorem greeting_in_parts :
    Flush "\nback home\nsay" ∧
      statements ("say\n  hello" ++ "\n" ++ "\nback home\nsay") =
        statements "say\n  hello" ++ statements "\nback home\nsay" ∧
      (Session.mk Vocabulary.standard {} (.fresh ())).compile
          ("say\n  hello" ++ "\n" ++ "\nback home\nsay") =
        (Session.mk Vocabulary.standard {} (.fresh ())).compileInParts
          "say\n  hello" "\nback home\nsay" ∧
      ((Session.mk Vocabulary.standard {} (.fresh ())).compileInParts
          "say\n  hello" "\nback home\nsay").map
        (fun result => (result.1.toOption, result.2.store.said, result.2.store.graph.names)) =
          some (none, ["hello"], ["hello", "back", "home"]) := by
  obtain ⟨hstatements, _, hcompile⟩ :=
    compile_in_parts (a := "say\n  hello") (show Flush "\nback home\nsay" by decide)
  exact ⟨by decide, hstatements, hcompile _, by decide⟩

end RelationLang
