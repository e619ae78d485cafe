import RelationLang.Graph.Document
import RelationLang.Interpreter
import RelationLang.Settings.Basic
import RelationLang.Verb

/-!
# Sessions

A session keeps one store over any number of programs, until it is told to forget. A program that
fails leaves in the store what it did before the error.

**Results.**
* `start_eq_ok_iff`: a session can be started exactly when its limit is not zero.
-/

namespace RelationLang

/-- A vocabulary, settings, and the store of all programs compiled so far. -/
structure Session (μ : Type) where
  vocabulary : Vocabulary μ
  settings : Settings
  store : Store μ

namespace Session

variable {μ : Type}

/-- A session with the standard words, changed and extended by plugins, and an empty graph. -/
def start (settings : Settings) (plugins : Vocabulary μ) (memory : μ) :
    Except SettingsError (Session μ) :=
  match settings.checked with
  | .error error => .error error
  | .ok settings => .ok ⟨Vocabulary.standard.merge plugins, settings, .fresh memory⟩

def interpreter (session : Session μ) : Interpreter μ :=
  ⟨session.vocabulary, session.settings.limit⟩

/-- Runs a program on the store of the session. -/
def run (session : Session μ) (text : String) : Option (Option Error × Session μ) :=
  let i := session.interpreter
  (i.source i.turns text session.store).map fun report =>
    (report.error?, { session with store := report.store })

/-- The chain of the session as a program, with a line feed at the end if the settings ask for
it and there is anything to end. -/
def output (session : Session μ) : String :=
  let text := session.store.graph.text
  if session.settings.finalNewline && !text.isEmpty then text ++ "\n" else text

/-- Runs a program and answers with the output of the session. -/
def compile (session : Session μ) (text : String) : Option (Except Error String × Session μ) :=
  (session.run text).map fun (error?, session) =>
    match error? with
    | some error => (.error error, session)
    | none => (.ok session.output, session)

def forget (session : Session μ) : Session μ :=
  { session with store := session.store.mapGraph fun _ => .empty }

/-- Forgets the graph after writing it, and compiles what was written. -/
def recompile (session : Session μ) : Option (Except Error String × Session μ) :=
  session.forget.compile session.store.graph.text

/-- The document of the graph as text. -/
def document (session : Session μ) : String := session.store.graph.toJson.pretty

/-- A session can be started exactly when its limit is not zero. -/
theorem start_eq_ok_iff (settings : Settings) (plugins : Vocabulary μ) (memory : μ) :
    (∃ session, start settings plugins memory = .ok session) ↔
      settings.limit ≠ some 0 := by
  by_cases h : settings.limit = some 0 <;> simp [start, Settings.checked, h]

end Session
end RelationLang
