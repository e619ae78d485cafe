import RelationLang.Graph.Concept
import RelationLang.Graph.Fact
import RelationLang.Json.Basic
import RelationLang.Program.Statement
import RelationLang.Settings.Basic

/-!
# Writing values as JSON

Each value becomes an object with a field for each of its parts, or a text if it is one of a few
words.
-/

namespace RelationLang

open Program

def FactKind.name : FactKind → String
  | .identity => "identity"
  | .property => "property"

def Program.StatementKind.name : StatementKind → String
  | .plain => "Plain"
  | .header => "Header"
  | .block => "Block"
  | .boxed => "Boxed"

def Pair.toJson (pair : Pair) : Json :=
  .object [("subject", .string pair.subject), ("object", .string pair.object)]

def Fact.toJson (fact : Fact) : Json :=
  .object [("pair", fact.pair.toJson), ("truth", .bool fact.truth),
    ("kind", .string fact.kind.name)]

/-- A concept as an object whose type tells atoms from boxes. -/
def Concept.toJson : Concept → Json
  | .atom name => .object [("type", .string "atom"), ("name", .string name)]
  | .boxed name content =>
    .object [("type", .string "boxed"), ("name", .string name), ("content", .strings content)]

/-- A statement as an object, without a field for a block it does not have. -/
def Program.Statement.toJson (statement : Statement) : Json :=
  let block := match statement.block with
    | some block => [("block", .strings block)]
    | none => []
  .object ([("tokens", .strings statement.tokens)] ++ block ++
    [("kind", .string statement.kind.name)])

/-- Settings as an object; no limit is `null`. -/
def Settings.toJson (settings : Settings) : Json :=
  .object [("log_level", .string settings.logLevel),
    ("max_continuations", (settings.limit.map Json.nat).getD .null),
    ("trailing_newline", .bool settings.finalNewline)]

end RelationLang
