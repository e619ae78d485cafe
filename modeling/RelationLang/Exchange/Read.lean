import RelationLang.Exchange.Write

/-!
# Reading values from JSON

The parts of a value are the fields of an object, or the items of an array in the order of the
parts. Further fields of an object are ignored; an array must not have further items. A part with
a default may be absent.

**Results.**
* `pairOf?_toJson`, `factOf?_toJson`, `conceptOf?_toJson`, `statementOf?_toJson`: what is written
  is read back.
-/

namespace RelationLang
namespace Exchange

open Program

/-- The parts with the given names, in this order; an absent part is none. -/
def parts? (names : List String) : Json → Option (List (Option Json))
  | .object fields => some (names.map fun name => fields.lookup name)
  | .array items =>
    if items.length ≤ names.length then
      some (items.map some ++ List.replicate (names.length - items.length) none)
    else none
  | _ => none

def textOf? : Json → Option String
  | .string text => some text
  | _ => none

def boolOf? : Json → Option Bool
  | .bool value => some value
  | _ => none

/-- A natural number of 64 bits, written without places. -/
def word64Of? : Json → Option Nat
  | .number value => value.toNat?.filter fun n => decide (n < UInt64.size)
  | _ => none

def textsOf? : Json → Option (List String)
  | .array items => items.mapM textOf?
  | _ => none

/-- Anything, or `null` for nothing. -/
def nullable? {α : Type} (read : Json → Option α) : Json → Option (Option α)
  | .null => some none
  | value => (read value).map some

/-- A part that may be absent. -/
def orElse? {α : Type} (default : α) (read : Json → Option α) : Option Json → Option α
  | none => some default
  | some value => read value

/-- One of several values by its name: the name itself, or an object with nothing under it. -/
def oneOf? {α : Type} (name : α → String) (values : List α) : Json → Option α
  | .string text => values.find? fun value => name value == text
  | .object [(text, .null)] => values.find? fun value => name value == text
  | _ => none

def factKindOf? : Json → Option FactKind := oneOf? FactKind.name [.identity, .property]

def statementKindOf? : Json → Option StatementKind :=
  oneOf? StatementKind.name [.plain, .header, .block, .boxed]

def pairOf? (value : Json) : Option Pair :=
  match parts? ["subject", "object"] value with
  | some [some subject, some object] => do
    return ⟨← textOf? subject, ← textOf? object⟩
  | _ => none

/-- A fact; without a kind it is an identity. -/
def factOf? (value : Json) : Option Fact :=
  match parts? ["pair", "truth", "kind"] value with
  | some [some pair, some truth, kind] => do
    return ⟨← pairOf? pair, ← boolOf? truth, ← orElse? .identity factKindOf? kind⟩
  | _ => none

/-- The parts of a concept of a given type. -/
def conceptOfType? (type : String) (value : Json) : Option Concept :=
  if type = "atom" then
    match parts? ["name"] value with
    | some [some name] => do return .atom (← textOf? name)
    | _ => none
  else if type = "boxed" then
    match parts? ["name", "content"] value with
    | some [some name, some content] => do return .boxed (← textOf? name) (← textsOf? content)
    | _ => none
  else none

/-- A concept. Its type is a field of its own, or comes before the other items. -/
def conceptOf? : Json → Option Concept
  | .object fields =>
    match fields.lookup "type" with
    | some (.string type) => conceptOfType? type (.object fields)
    | _ => none
  | .array (.string type :: rest) => conceptOfType? type (.array rest)
  | _ => none

/-- A statement; its block may be absent. -/
def statementOf? (value : Json) : Option Statement :=
  match parts? ["tokens", "block", "kind"] value with
  | some [some tokens, block, some kind] => do
    return ⟨← textsOf? tokens, ← orElse? none (nullable? textsOf?) block,
      ← statementKindOf? kind⟩
  | _ => none

/-- Settings; each of them may be absent. The limit is not checked. -/
def settingsOf? (value : Json) : Option Settings :=
  match parts? ["log_level", "max_continuations", "trailing_newline"] value with
  | some [level, limit, newline] => do
    return ⟨← orElse? "info" textOf? level, ← orElse? none (nullable? word64Of?) limit,
      ← orElse? false boolOf? newline⟩
  | _ => none

@[simp] theorem textsOf?_strings (texts : List String) :
    textsOf? (.strings texts) = some texts := by
  simp only [textsOf?, Json.strings]
  induction texts with
  | nil => rfl
  | cons text texts ih => simp [List.mapM_cons, textOf?, ih]

@[simp] theorem factKindOf?_name (kind : FactKind) :
    factKindOf? (.string kind.name) = some kind := by
  cases kind <;> rfl

@[simp] theorem statementKindOf?_name (kind : StatementKind) :
    statementKindOf? (.string kind.name) = some kind := by
  cases kind <;> rfl

@[simp] theorem pairOf?_toJson (pair : Pair) : pairOf? pair.toJson = some pair := rfl

theorem factOf?_toJson (fact : Fact) : factOf? fact.toJson = some fact := by
  rcases fact with ⟨pair, truth, _ | _⟩ <;> rfl

theorem conceptOf?_toJson (concept : Concept) : conceptOf? concept.toJson = some concept := by
  cases concept with
  | atom name => rfl
  | boxed name content =>
    have h := textsOf?_strings content
    simp [Concept.toJson, conceptOf?, conceptOfType?, parts?, List.lookup_cons, textOf?, h]

theorem statementOf?_toJson (statement : Statement) :
    statementOf? statement.toJson = some statement := by
  obtain ⟨tokens, block, kind⟩ := statement
  have hkind := statementKindOf?_name kind
  cases block with
  | none => simp [Statement.toJson, statementOf?, parts?, List.lookup_cons, orElse?, hkind]
  | some block =>
    have hblock : nullable? textsOf? (.strings block) = some (some block) := by
      have h := textsOf?_strings block
      simpa [nullable?, Json.strings] using h
    simp [Statement.toJson, statementOf?, parts?, List.lookup_cons, orElse?, hkind, hblock]

end Exchange
end RelationLang
